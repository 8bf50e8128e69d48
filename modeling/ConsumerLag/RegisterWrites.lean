import ConsumerLag.RegisterRun

/-!
# How the register's writes compose

A run of the register interleaves four kinds of writes. Compared with the run of some of its
writes only, each kind either keeps by itself what the comparison looks at, or keeps it when
both registers take the write; one induction then compares the two runs. Two comparisons:
the groups of the register, decided by its imports alone, and everything but the lags'
estimates, which the refreshes never touch.
-/
namespace ConsumerLag

namespace RegisterEvent

def isImport : RegisterEvent → Bool
  | importGroups _ => true
  | _ => false

def isRefresh : RegisterEvent → Bool
  | updateStaleLags _ _ => true
  | _ => false

end RegisterEvent

/-- A relation kept by each write holds between a run and the run of its `keep` writes. -/
theorem runRegister_filter_rel (keep : RegisterEvent → Bool) (R : LagByGroup → LagByGroup → Prop)
    (hempty : R HashMap.empty HashMap.empty)
    (hdrop : ∀ e r r' s, keep e = false → e.apply r = .ok r' → R r s → R r' s)
    (hkeep : ∀ e r r' s s', keep e = true → e.apply r = .ok r' → e.apply s = .ok s' → R r s →
      R r' s')
    (evs : List RegisterEvent) :
    ∃ r s, runRegister evs = .ok r ∧ runRegister (evs.filter keep) = .ok s ∧ R r s := by
  induction evs using List.reverseRecOn with
  | nil => exact ⟨_, _, rfl, rfl, hempty⟩
  | append_singleton evs e ih =>
    obtain ⟨r, s, hr, hs, hR⟩ := ih
    obtain ⟨r', he⟩ := e.apply_ok r
    cases hk : keep e
    · refine ⟨r', s, runRegister_snoc_of_apply hr e he, ?_, hdrop e r r' s hk he hR⟩
      simpa [List.filter_append, hk] using hs
    · obtain ⟨s', he'⟩ := e.apply_ok s
      refine ⟨r', s', runRegister_snoc_of_apply hr e he, ?_, hkeep e r r' s s' hk he he' hR⟩
      simpa [List.filter_append, hk] using runRegister_snoc_of_apply hs e he'

private theorem map_eq_of_optionRel {α β γ : Type} {R : α → β → Prop} {f : α → γ} {f' : β → γ}
    {a : Option α} {b : Option β} (h : Option.Rel R a b) (hf : ∀ x y, R x y → f' y = f x) :
    b.map f' = a.map f := by
  cases h with
  | none => rfl
  | some hxy => exact congrArg some (hf _ _ hxy)

private theorem isSome_eq_of_optionRel {α β : Type} {R : α → β → Prop} {a : Option α}
    {b : Option β} (h : Option.Rel R a b) : b.isSome = a.isSome := by
  cases h <;> rfl

theorem map_group_updateStaleLags (po : PartitionOffsetsRegister) (clock : ℕ → Int)
    (r : LagByGroup) (g : String) :
    ((updateStaleLags po clock r).get? g).map GroupWithLag.group =
      (r.get? g).map GroupWithLag.group :=
  map_eq_of_optionRel (HashMap.rel_lookup_of_forall₂
    (updateStaleLagsGroups_refreshed po clock 0 r.toList) g) fun _ _ h => h.1

/-- Two registers holding the same groups, each with the same `Group`. -/
def LagByGroup.SameGroups (r r' : LagByGroup) : Prop :=
  ∀ g, (r'.get? g).map GroupWithLag.group = (r.get? g).map GroupWithLag.group

theorem contains_eq_of_map_group {r r' : LagByGroup} {g : String}
    (h : (r'.get? g).map GroupWithLag.group = (r.get? g).map GroupWithLag.group) :
    r'.contains g = r.contains g := by
  simpa [HashMap.contains] using congrArg Option.isSome h

theorem LagByGroup.SameGroups.contains_eq {r r' : LagByGroup} (h : r.SameGroups r') (g : String) :
    r'.contains g = r.contains g :=
  contains_eq_of_map_group (h g)

/-- Commits, group metadata and refreshes leave the groups as they are. -/
theorem RegisterEvent.sameGroups_apply {e : RegisterEvent} (he : e.isImport = false)
    {r r' : LagByGroup} (h : e.apply r = .ok r') : r.SameGroups r' := by
  cases e with
  | offsetCommit oc po => cases h; exact map_group_processOffsetCommit po oc r
  | groupMetadata gm => cases h; exact map_group_processGroupMetadata gm r
  | importGroups reads => cases he
  | updateStaleLags po clock => cases h; exact map_group_updateStaleLags po clock r

/-- An import leaves the same groups in registers that held the same groups. -/
theorem sameGroups_processConsumerGroups {reads : ConsumerGroupsReads} {r r' s s' : LagByGroup}
    (hr : processConsumerGroups reads r = .ok r') (hs : processConsumerGroups reads s = .ok s')
    (h : r.SameGroups s) : r'.SameGroups s' := fun g => by
  rw [map_group_processConsumerGroups hr, map_group_processConsumerGroups hs, h g]

/-- The groups of the register, and the `Group` of each, are decided by the imports alone. -/
theorem runRegister_groups_from_imports (evs : List RegisterEvent) :
    ∃ r r', runRegister evs = .ok r ∧ runRegister (evs.filter RegisterEvent.isImport) = .ok r' ∧
      ∀ g, (r'.get? g).map GroupWithLag.group = (r.get? g).map GroupWithLag.group := by
  refine runRegister_filter_rel _ LagByGroup.SameGroups (fun _ => rfl)
    (fun e r r' s hk he h g => ?_) (fun e r r' s s' hk he he' h => ?_) evs
  · rw [h g, RegisterEvent.sameGroups_apply hk he g]
  · cases e <;> first | exact sameGroups_processConsumerGroups he he' h | cases hk

/-- An entry apart from its lag's estimates: its owner, and its lag's offset and commit time. -/
def LagWithOwner.commitView (lwo : LagWithOwner) : Option Member × Option (ℕ × Int) :=
  (lwo.owner, lwo.lag.map fun l => (l.offset, l.offsetTimestamp))

/-- Two registers that differ at most in their lags' estimates and `timestamp`s. -/
def LagByGroup.SameCommits (r r' : LagByGroup) : Prop :=
  r.SameGroups r' ∧ ∀ g tp,
    (r'.entryAt g tp).map LagWithOwner.commitView = (r.entryAt g tp).map LagWithOwner.commitView

theorem LagByGroup.SameCommits.symm {r r' : LagByGroup} (h : r.SameCommits r') :
    r'.SameCommits r :=
  ⟨fun g => (h.1 g).symm, fun g tp => (h.2 g tp).symm⟩

theorem LagByGroup.SameCommits.trans {r₁ r₂ r₃ : LagByGroup} (h₁ : r₁.SameCommits r₂)
    (h₂ : r₂.SameCommits r₃) : r₁.SameCommits r₃ :=
  ⟨fun g => (h₂.1 g).trans (h₁.1 g), fun g tp => (h₂.2 g tp).trans (h₁.2 g tp)⟩

theorem bind_owner_of_commitView {x y : Option LagWithOwner}
    (h : y.map LagWithOwner.commitView = x.map LagWithOwner.commitView) :
    y.bind LagWithOwner.owner = x.bind LagWithOwner.owner := by
  cases x <;> cases y <;> simp_all [LagWithOwner.commitView]

theorem bind_lag_of_commitView {x y : Option LagWithOwner}
    (h : y.map LagWithOwner.commitView = x.map LagWithOwner.commitView) :
    (y.bind LagWithOwner.lag).map (fun l => (l.offset, l.offsetTimestamp)) =
      (x.bind LagWithOwner.lag).map (fun l => (l.offset, l.offsetTimestamp)) := by
  cases x <;> cases y <;> simp_all [LagWithOwner.commitView]

/-- A refresh changes nothing but estimates. -/
theorem sameCommits_updateStaleLags (po : PartitionOffsetsRegister) (clock : ℕ → Int)
    (r : LagByGroup) : r.SameCommits (updateStaleLags po clock r) :=
  ⟨map_group_updateStaleLags po clock r, fun g tp =>
    map_eq_of_optionRel (entryAt_updateStaleLags po clock r g tp) fun _ _ h => by
      rw [LagWithOwner.commitView, LagWithOwner.commitView, h.1,
        map_eq_of_optionRel h.2 fun _ _ hl => by rw [hl.frame.1, hl.frame.2.1]]⟩

theorem sameCommits_processOffsetCommit (po : PartitionOffsetsRegister) (oc : OffsetCommit)
    {r s : LagByGroup} (h : r.SameCommits s) :
    (processOffsetCommit po oc r).SameCommits (processOffsetCommit po oc s) := by
  refine ⟨fun g => by rw [map_group_processOffsetCommit, map_group_processOffsetCommit, h.1 g],
    fun g tp => ?_⟩
  rw [entryAt_processOffsetCommit, entryAt_processOffsetCommit, h.1.contains_eq]
  split_ifs
  · simp [LagWithOwner.commitView, bind_owner_of_commitView (h.2 g tp)]
  · exact h.2 g tp

theorem sameCommits_processGroupMetadata (gm : GroupMetadata) {r s : LagByGroup}
    (h : r.SameCommits s) :
    (processGroupMetadata gm r).SameCommits (processGroupMetadata gm s) := by
  refine ⟨fun g => by rw [map_group_processGroupMetadata, map_group_processGroupMetadata, h.1 g],
    fun g tp => ?_⟩
  rw [entryAt_processGroupMetadata, entryAt_processGroupMetadata]
  split_ifs
  · cases gm.lastClaimant tp with
    | none => rfl
    | some c =>
      simpa only [Option.some_bind, Option.map_map] using congrArg
        (Option.map fun v : Option Member × Option (ℕ × Int) => (some c.owner, v.2)) (h.2 g tp)
  · exact h.2 g tp

theorem sameCommits_processConsumerGroups {reads : ConsumerGroupsReads} {r r' s s' : LagByGroup}
    (hr : processConsumerGroups reads r = .ok r') (hs : processConsumerGroups reads s = .ok s')
    (h : r.SameCommits s) : r'.SameCommits s' := by
  refine ⟨sameGroups_processConsumerGroups hr hs h.1, fun g tp => ?_⟩
  rw [entryAt_processConsumerGroups hr, entryAt_processConsumerGroups hs]
  split_ifs
  · cases reads.getGroup g with
    | none => exact h.2 g tp
    | some gwm =>
      simp only [Option.map_map]
      congr 1
      funext m
      simp [LagWithOwner.commitView, bind_lag_of_commitView (h.2 g tp)]
  · rfl

/-- Erasing every refresh from a run changes nothing but the lags' estimates. -/
theorem runRegister_erase_refreshes (evs : List RegisterEvent) :
    ∃ r r', runRegister evs = .ok r ∧
      runRegister (evs.filter fun e => !e.isRefresh) = .ok r' ∧ r.SameCommits r' := by
  refine runRegister_filter_rel _ LagByGroup.SameCommits ⟨fun _ => rfl, fun _ _ => rfl⟩
    (fun e r r' s hk he h => ?_) (fun e r r' s s' hk he he' h => ?_) evs
  · cases e with
    | updateStaleLags po clock => cases he; exact (sameCommits_updateStaleLags po clock r).symm.trans h
    | _ => cases hk
  · cases e with
    | offsetCommit oc po => cases he; cases he'; exact sameCommits_processOffsetCommit po oc h
    | groupMetadata gm => cases he; cases he'; exact sameCommits_processGroupMetadata gm h
    | importGroups reads => exact sameCommits_processConsumerGroups he he' h
    | updateStaleLags => cases hk

/-- An entry that holds a lag or an owner. -/
def LagWithOwner.Held (lwo : LagWithOwner) : Prop := lwo.lag.isSome ∨ lwo.owner.isSome

/-- Every write leaves only entries that hold a lag or an owner. -/
theorem RegisterEvent.held_apply {e : RegisterEvent} {r r' : LagByGroup} (h : e.apply r = .ok r')
    (hr : ∀ g tp lwo, r.entryAt g tp = some lwo → lwo.Held) :
    ∀ g tp lwo, r'.entryAt g tp = some lwo → lwo.Held := by
  intro g tp lwo hl
  cases e with
  | offsetCommit oc po =>
    cases h
    rw [entryAt_processOffsetCommit] at hl
    split_ifs at hl
    · cases hl
      exact .inl rfl
    · exact hr g tp lwo hl
  | groupMetadata gm =>
    cases h
    rw [entryAt_processGroupMetadata] at hl
    split_ifs at hl
    · obtain ⟨c, -, hl⟩ := Option.bind_eq_some.mp hl
      obtain ⟨_, -, rfl⟩ := Option.map_eq_some'.mp hl
      exact .inr rfl
    · exact hr g tp lwo hl
  | importGroups reads =>
    rw [entryAt_processConsumerGroups h] at hl
    split_ifs at hl
    · revert hl
      cases reads.getGroup g with
      | none => exact hr g tp lwo
      | some gwm =>
        intro hl
        obtain ⟨_, -, rfl⟩ := Option.map_eq_some'.mp hl
        exact .inr rfl
  | updateStaleLags po clock =>
    cases h
    have hrel := entryAt_updateStaleLags po clock r g tp
    cases hx : r.entryAt g tp with
    | none => rw [hx, hl] at hrel; cases hrel
    | some lwo0 =>
      rw [hx, hl] at hrel
      obtain ⟨ho, hlag⟩ : RefreshedEntry clock lwo0 lwo := by cases hrel; assumption
      rcases hr g tp lwo0 hx with hs | hs
      · exact .inl ((isSome_eq_of_optionRel hlag).trans hs)
      · exact .inr (ho ▸ hs)

/-- No run leaves an empty entry: every entry of the register holds a lag or an owner. -/
theorem runRegister_entries_held (evs : List RegisterEvent) :
    ∃ r, runRegister evs = .ok r ∧ ∀ g tp lwo, r.entryAt g tp = some lwo →
      lwo.lag.isSome ∨ lwo.owner.isSome :=
  runRegister_induction _ (fun g tp lwo h => by simp [LagByGroup.entryAt, HashMap.empty, HashMap.get?] at h)
    (fun _ _ _ _ _ hp he => RegisterEvent.held_apply he hp) evs

/-- Importing the same reads again changes no group, `Group` or entry. -/
theorem processConsumerGroups_twice (reads : ConsumerGroupsReads) (r : LagByGroup) :
    ∃ r₁ r₂, processConsumerGroups reads r = .ok r₁ ∧ processConsumerGroups reads r₁ = .ok r₂ ∧
      (∀ g, (r₂.get? g).map GroupWithLag.group = (r₁.get? g).map GroupWithLag.group) ∧
      ∀ g tp, r₂.entryAt g tp = r₁.entryAt g tp := by
  obtain ⟨r₁, h₁⟩ := RegisterEvent.apply_ok (.importGroups reads) r
  obtain ⟨r₂, h₂⟩ := RegisterEvent.apply_ok (.importGroups reads) r₁
  refine ⟨_, _, h₁, h₂, fun g => ?_, fun g tp => ?_⟩
  · rw [map_group_processConsumerGroups h₂, map_group_processConsumerGroups h₁]
    split_ifs <;> cases reads.getGroup g <;> rfl
  · rw [entryAt_processConsumerGroups h₂, entryAt_processConsumerGroups h₁]
    split_ifs
    · cases reads.getGroup g with
      | none => rfl
      | some gwm =>
        dsimp only
        cases (membersByTopicPartition gwm).get? tp <;> rfl
    · rfl

end ConsumerLag
