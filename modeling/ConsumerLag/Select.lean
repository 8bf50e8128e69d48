import Mathlib.Data.List.Range

/-!
# `tokio::select!`

A `select!` without `biased;` polls its branches in a random order and runs the first whose
future completes with a value its pattern matches. A completed future whose value the pattern
refuses disables its branch; `else` runs only once every branch is disabled. Which arm runs is
therefore a choice among the arms that are ready, and the select waits while there is none.
-/
namespace ConsumerLag

/-- A branch of a `select!` when polled. -/
inductive BranchPoll
  | pending
  | matched
  | disabled
  deriving DecidableEq, Repr

/-- A branch whose pattern takes every value: matched once its future is ready. -/
def BranchPoll.ofReady (ready : Bool) : BranchPoll := if ready then .matched else .pending

theorem BranchPoll.ofReady_ne_disabled (ready : Bool) : BranchPoll.ofReady ready ≠ .disabled := by
  cases ready <;> simp [BranchPoll.ofReady]

/-- The arms the select may run, by branch index, with `none` for `else`. -/
def selectArms (polls : List BranchPoll) : List (Option ℕ) :=
  if polls.all (· = .disabled) then [none]
  else ((List.range polls.length).filter fun i => polls[i]? = some .matched).map some

theorem none_mem_selectArms {polls : List BranchPoll} :
    none ∈ selectArms polls ↔ ∀ p ∈ polls, p = .disabled := by
  unfold selectArms
  split
  · next h => simpa using h
  · next h => simpa [List.mem_map] using h

theorem some_mem_selectArms {polls : List BranchPoll} {i : ℕ} :
    some i ∈ selectArms polls ↔ polls[i]? = some .matched := by
  unfold selectArms
  split
  · next h =>
    simp only [List.all_eq_true, decide_eq_true_eq] at h
    simp only [List.mem_singleton, reduceCtorEq, false_iff]
    exact fun hi => absurd (h _ (List.getElem?_mem hi)) (by decide)
  · simp only [List.mem_map, List.mem_filter, List.mem_range, decide_eq_true_eq,
      Option.some.injEq]
    exact ⟨fun ⟨_, ⟨_, hj⟩, he⟩ => he ▸ hj,
      fun hi => ⟨i, ⟨(List.getElem?_eq_some_iff.mp hi).1, hi⟩, rfl⟩⟩

/-- The arm the select runs at choice `k`; it waits (`none`) only while no arm is ready. -/
def selectChoice (polls : List BranchPoll) (k : ℕ) : Option (Option ℕ) :=
  (selectArms polls)[k % (selectArms polls).length]?

/-- A select with a branch that takes every value never runs its `else` arm. -/
theorem selectChoice_ne_else {polls : List BranchPoll} (k : ℕ) {ready : Bool}
    (h : BranchPoll.ofReady ready ∈ polls) : selectChoice polls k ≠ some none := fun hc =>
  BranchPoll.ofReady_ne_disabled ready (none_mem_selectArms.mp (List.getElem?_mem hc) _ h)

end ConsumerLag
