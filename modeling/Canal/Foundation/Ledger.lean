import Canal.Foundation.Trace
import Mathlib.Logic.Function.Basic

/-!
# Who holds which resource

A program acquires resources, uses them and releases them. The calls it makes are
kept in a list; replaying them says which resources are still there, and fails at the
first call that uses or releases one that is not.

The accounts are in order if every resource that is there has exactly one holder, or
has been put aside. A local variable that holds a resource for a while puts it aside
and takes it back; what is never taken back is lost.
-/

namespace Ledger

universe u v w

/-- A call that hands out a resource, that uses one, and that gives one back. -/
inductive Call (ρ : Type u) (ω : Type v) where
  | acquire (r : ρ)
  | use (op : ω) (r : ρ)
  | release (r : ρ)

variable {ρ : Type u} {ω : Type v} {η : Type w} [DecidableEq ρ]

/-- The resources that are there after a call. -/
def perform (table : ρ → Bool) : Call ρ ω → Option (ρ → Bool)
  | .acquire r => if table r then none else some (Function.update table r true)
  | .use _ r => if table r then some table else none
  | .release r => if table r then some (Function.update table r false) else none

/-- The resources that are there after some calls, if none of them fails. -/
def replay : (ρ → Bool) → List (Call ρ ω) → Option (ρ → Bool)
  | table, [] => some table
  | table, call :: calls =>
      match perform table call with
      | some table => replay table calls
      | none => none

/-- Every resource that is there is held once, or is put aside. -/
structure Accounts (table : ρ → Bool) (holder : η → Option ρ) (aside : List ρ) : Prop where
  held : ∀ h r, holder h = some r → table r = true
  kept : ∀ r ∈ aside, table r = true
  covered : ∀ r, table r = true → (∃ h, holder h = some r) ∨ r ∈ aside
  unique : ∀ h k r, holder h = some r → holder k = some r → h = k
  apart : ∀ h, ∀ r ∈ aside, holder h ≠ some r
  once : aside.Nodup

/-- The calls bring the accounts from one state into another. -/
def Brings (calls : List (Call ρ ω)) (holder : η → Option ρ) (aside : List ρ)
    (holder' : η → Option ρ) (aside' : List ρ) : Prop :=
  ∀ table, Accounts table holder aside →
    ∃ table', replay table calls = some table' ∧ Accounts table' holder' aside'

variable {table : ρ → Bool} {holder holder' holder'' : η → Option ρ}
  {aside aside' aside'' : List ρ} {calls rest : List (Call ρ ω)} {r : ρ}

omit [DecidableEq ρ] in
theorem accounts_empty : Accounts (fun _ : ρ => false) (fun _ : η => none) [] :=
  ⟨nofun, nofun, nofun, nofun, nofun, List.nodup_nil⟩

theorem replay_append (table : ρ → Bool) (calls rest : List (Call ρ ω)) :
    replay table (calls ++ rest) = (replay table calls).bind fun table => replay table rest := by
  induction calls generalizing table with
  | nil => rfl
  | cons call calls ih =>
      rw [List.cons_append, replay, replay]
      cases perform table call with
      | none => rfl
      | some table => exact ih table

/-! ## Sequences of calls -/

theorem Brings.nil : Brings ([] : List (Call ρ ω)) holder aside holder aside :=
  fun table h => ⟨table, rfl, h⟩

theorem Brings.append (h : Brings calls holder aside holder' aside')
    (h' : Brings rest holder' aside' holder'' aside'') :
    Brings (calls ++ rest) holder aside holder'' aside'' := by
  intro table htable
  obtain ⟨table', hreplay, htable'⟩ := h table htable
  obtain ⟨table'', hrest, htable''⟩ := h' table' htable'
  exact ⟨table'', by rw [replay_append, hreplay, Option.bind_some, hrest], htable''⟩

theorem Brings.cons {call : Call ρ ω} (h : Brings [call] holder aside holder' aside')
    (h' : Brings rest holder' aside' holder'' aside'') :
    Brings (call :: rest) holder aside holder'' aside'' :=
  Brings.append h h'

/-- What happens behind the last call. -/
theorem Brings.finally (h : Brings calls holder aside holder' aside')
    (h' : Brings ([] : List (Call ρ ω)) holder' aside' holder'' aside'') :
    Brings calls holder aside holder'' aside'' := by
  have hdone := h.append h'
  rwa [List.append_nil] at hdone

/-! ## Single calls -/

/-- A resource that is handed out is put aside; nobody else has it. -/
theorem Accounts.acquire (h : Accounts table holder aside) (hr : table r = false) :
    Accounts (Function.update table r true) holder (r :: aside) where
  held k q hq := by
    by_cases hqr : q = r
    · simp [hqr]
    · rw [Function.update_of_ne hqr]
      exact h.held k q hq
  kept q hq := by
    by_cases hqr : q = r
    · simp [hqr]
    · rw [Function.update_of_ne hqr]
      exact h.kept q ((List.mem_cons.mp hq).resolve_left hqr)
  covered q hq := by
    by_cases hqr : q = r
    · exact Or.inr (by simp [hqr])
    · rw [Function.update_of_ne hqr] at hq
      exact (h.covered q hq).imp_right (List.mem_cons_of_mem r)
  unique := h.unique
  apart k q hq hk := by
    obtain rfl | hq := List.mem_cons.mp hq
    · rw [h.held k q hk] at hr
      cases hr
    · exact h.apart k q hq hk
  once := by
    refine List.nodup_cons.mpr ⟨fun hmem => ?_, h.once⟩
    rw [h.kept r hmem] at hr
    cases hr

/-- A function that works with a new resource. -/
theorem Accounts.replay_cons (h : Accounts table holder aside) (hr : table r = false)
    (hrest : Brings rest holder (r :: aside) holder' aside') :
    ∃ table', replay table (.acquire r :: rest) = some table' ∧ Accounts table' holder' aside' := by
  obtain ⟨table', hreplay, htable'⟩ := hrest _ (h.acquire hr)
  exact ⟨table', by simp [replay, perform, hr, hreplay], htable'⟩

/-- What is put aside can be used. -/
theorem Brings.use {op : ω} (hr : r ∈ aside) :
    Brings [.use op r] holder aside holder aside := by
  intro table h
  exact ⟨table, by simp [replay, perform, h.kept r hr], h⟩

theorem Brings.uses {ops : List ω} (hr : r ∈ aside) :
    Brings (ops.map fun op => .use op r) holder aside holder aside := by
  induction ops with
  | nil => exact .nil
  | cons op ops ih => exact .cons (.use hr) ih

/-- What is held can be used. -/
theorem Brings.use_held {op : ω} {k : η} (hk : holder k = some r) :
    Brings [.use op r] holder aside holder aside := by
  intro table h
  exact ⟨table, by simp [replay, perform, h.held k r hk], h⟩

/-- What has been put aside is given back. -/
theorem Brings.release : Brings [(.release r : Call ρ ω)] holder (r :: aside) holder aside := by
  intro table h
  have hmem : r ∉ aside := (List.nodup_cons.mp h.once).1
  have hne : ∀ {q}, q ∈ aside → q ≠ r := fun hq heq => hmem (heq ▸ hq)
  refine ⟨Function.update table r false, ?_, ?_⟩
  · simp [replay, perform, h.kept r List.mem_cons_self]
  · refine ⟨fun k q hq => ?_, fun q hq => ?_, fun q hq => ?_, h.unique, fun k q hq => ?_, ?_⟩
    · have hqr : q ≠ r := by
        rintro rfl
        exact h.apart k q List.mem_cons_self hq
      rw [Function.update_of_ne hqr]
      exact h.held k q hq
    · rw [Function.update_of_ne (hne hq)]
      exact h.kept q (List.mem_cons_of_mem r hq)
    · by_cases hqr : q = r
      · simp [hqr] at hq
      · rw [Function.update_of_ne hqr] at hq
        exact (h.covered q hq).imp_right fun hmem => (List.mem_cons.mp hmem).resolve_left hqr
    · exact h.apart k q (List.mem_cons_of_mem r hq)
    · exact (List.nodup_cons.mp h.once).2

section

variable [DecidableEq η] {k : η}

/-- A holder without a resource takes what has been put aside. -/
theorem Brings.take (hk : holder k = none) :
    Brings ([] : List (Call ρ ω)) holder (r :: aside) (Function.update holder k (some r))
      aside := by
  intro table h
  have hmem : r ∉ aside := (List.nodup_cons.mp h.once).1
  refine ⟨table, rfl, fun j q hq => ?_, fun q hq => ?_, fun q hq => ?_, fun i j q hi hj => ?_,
    fun j q hq hj => ?_, (List.nodup_cons.mp h.once).2⟩
  · by_cases hjk : j = k
    · subst hjk
      rw [Function.update_self] at hq
      obtain rfl := Option.some.inj hq
      exact h.kept r List.mem_cons_self
    · rw [Function.update_of_ne hjk] at hq
      exact h.held j q hq
  · exact h.kept q (List.mem_cons_of_mem r hq)
  · obtain ⟨j, hj⟩ | hmem := h.covered q hq
    · have hjk : j ≠ k := by
        rintro rfl
        rw [hk] at hj
        cases hj
      exact Or.inl ⟨j, by rw [Function.update_of_ne hjk, hj]⟩
    · obtain rfl | hmem := List.mem_cons.mp hmem
      · exact Or.inl ⟨k, Function.update_self ..⟩
      · exact Or.inr hmem
  · -- the resource that is taken has had no holder
    have hnew : ∀ j, j ≠ k → Function.update holder k (some r) j = some q → q ≠ r := by
      rintro j hjk hj rfl
      rw [Function.update_of_ne hjk] at hj
      exact h.apart j q List.mem_cons_self hj
    by_cases hik : i = k <;> by_cases hjk : j = k
    · rw [hik, hjk]
    · subst hik
      rw [Function.update_self] at hi
      exact absurd (Option.some.inj hi).symm (hnew j hjk hj)
    · subst hjk
      rw [Function.update_self] at hj
      exact absurd (Option.some.inj hj).symm (hnew i hik hi)
    · rw [Function.update_of_ne hik] at hi
      rw [Function.update_of_ne hjk] at hj
      exact h.unique i j q hi hj
  · by_cases hjk : j = k
    · subst hjk
      rw [Function.update_self] at hj
      exact hmem (Option.some.inj hj ▸ hq)
    · rw [Function.update_of_ne hjk] at hj
      exact h.apart j q (List.mem_cons_of_mem r hq) hj

/-- A holder puts its resource aside. -/
theorem Brings.put (hk : holder k = some r) :
    Brings ([] : List (Call ρ ω)) holder aside (Function.update holder k none) (r :: aside) := by
  intro table h
  have hold : ∀ {j q}, Function.update holder k none j = some q → j ≠ k ∧ holder j = some q := by
    intro j q hj
    by_cases hjk : j = k
    · subst hjk
      simp at hj
    · exact ⟨hjk, by rwa [Function.update_of_ne hjk] at hj⟩
  refine ⟨table, rfl, fun j q hq => h.held j q (hold hq).2, fun q hq => ?_, fun q hq => ?_,
    fun i j q hi hj => h.unique i j q (hold hi).2 (hold hj).2, fun j q hq hj => ?_, ?_⟩
  · obtain rfl | hq := List.mem_cons.mp hq
    · exact h.held k q hk
    · exact h.kept q hq
  · obtain ⟨j, hj⟩ | hmem := h.covered q hq
    · by_cases hjk : j = k
      · subst hjk
        obtain rfl := Option.some.inj (hk.symm.trans hj)
        exact Or.inr List.mem_cons_self
      · exact Or.inl ⟨j, by rw [Function.update_of_ne hjk, hj]⟩
    · exact Or.inr (List.mem_cons_of_mem r hmem)
  · obtain ⟨hjk, hj⟩ := hold hj
    obtain rfl | hq := List.mem_cons.mp hq
    · exact hjk (h.unique j k q hj hk)
    · exact h.apart j q hq hj
  · exact List.nodup_cons.mpr ⟨fun hmem => h.apart k r hmem hk, h.once⟩

/-- A holder gives its resource back. -/
theorem Brings.drop (hk : holder k = some r) :
    Brings [(.release r : Call ρ ω)] holder aside (Function.update holder k none) aside :=
  (Brings.put hk).append .release

end

end Ledger
