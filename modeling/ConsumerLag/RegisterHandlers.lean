import ConsumerLag.Types

/-!
# The two event handlers of the lag register

`process_offset_commit` and `process_group_metadata` of `lag_register/register.rs`, each
holding the write lock for its whole body, so each is one function of the register's map.
Their `warn!` and `debug!` lines are not modelled: the arms that only log leave the map as it is.
-/
namespace ConsumerLag

/-- The `Lag` that `process_offset_commit` prepares for `oc`. -/
def commitLag (po : PartitionOffsetsRegister) (oc : OffsetCommit) : Lag where
  offset := asU64 oc.offset
  offsetTimestamp := oc.commitTimestamp
  timestamp := oc.commitTimestamp
  offsetLag := (po.estimateOffsetLag oc.topicPartition (asU64 oc.offset)).getD 0
  timeLag := (po.estimateTimeLag oc.topicPartition (asU64 oc.offset) oc.commitTimestamp).getD 0

/-- `process_offset_commit`: the `and_modify` keeps the owner, the `or_insert_with` has none. -/
def processOffsetCommit (po : PartitionOffsetsRegister) (oc : OffsetCommit) (r : LagByGroup) :
    LagByGroup :=
  match r.get? oc.group with
  | some _ =>
    let l := commitLag po oc
    r.modify oc.group fun gwl =>
      { gwl with
        lagByTopicPartition := gwl.lagByTopicPartition.upsert oc.topicPartition
          (fun lwo => { lwo with lag := some l }) ⟨some l, none⟩ }
  | none => r

/-- The `Member` that `process_group_metadata` makes of a member's metadata. -/
def MemberMetadata.owner (m : MemberMetadata) : Member := ⟨m.id, m.clientId, m.clientHost⟩

/-- `new_tp_to_owner`: the members' partitions collected in order, a later member winning. -/
def newTpToOwner (gm : GroupMetadata) : HashMap TopicPartition Member :=
  HashMap.fromList <| gm.members.flatMap fun m =>
    let owner := m.owner
    let assignmentTps := HashMap.fromList <|
      (m.assignment.assignedTopicPartitions.flatMap TopicPartition.vecFrom).map (·, owner)
    let subscriptionTps := HashMap.fromList <|
      (m.subscription.ownedTopicPartitions.flatMap TopicPartition.vecFrom).map (·, owner)
    (HashMap.fromList (assignmentTps.toList ++ subscriptionTps.toList)).toList

/-- Following the spec: the partitions a member's metadata lists, assigned ones first. -/
def MemberMetadata.topicPartitions (m : MemberMetadata) : List TopicPartition :=
  m.assignment.assignedTopicPartitions.flatMap TopicPartition.vecFrom ++
    m.subscription.ownedTopicPartitions.flatMap TopicPartition.vecFrom

/-- Following the spec: the last member of `gm` whose assigned or owned partitions include `tp`. -/
def GroupMetadata.lastClaimant (gm : GroupMetadata) (tp : TopicPartition) :
    Option MemberMetadata :=
  gm.members.reverse.find? fun m => tp ∈ m.topicPartitions

/-- The `for` loop of `process_group_metadata`: an entry present in the map gets its owner. -/
def setOwners (owners : List (TopicPartition × Member))
    (m : HashMap TopicPartition LagWithOwner) : HashMap TopicPartition LagWithOwner :=
  owners.foldl (fun m e => m.modify e.1 fun lwo => { lwo with owner := some e.2 }) m

/-- `process_group_metadata`. -/
def processGroupMetadata (gm : GroupMetadata) (r : LagByGroup) : LagByGroup :=
  if gm.members.isEmpty then r
  else
    match r.get? gm.group with
    | some _ =>
      let owners := newTpToOwner gm
      r.modify gm.group fun gwl =>
        { gwl with
          lagByTopicPartition := setOwners owners.toList
            (gwl.lagByTopicPartition.retain fun tp _ => owners.contains tp) }
    | none => r

/-- Neither handler adds or removes a group. -/
@[simp] theorem contains_processOffsetCommit (po : PartitionOffsetsRegister) (oc : OffsetCommit)
    (r : LagByGroup) (g : String) : (processOffsetCommit po oc r).contains g = r.contains g := by
  unfold processOffsetCommit
  split <;> simp

@[simp] theorem contains_processGroupMetadata (gm : GroupMetadata) (r : LagByGroup) (g : String) :
    (processGroupMetadata gm r).contains g = r.contains g := by
  unfold processGroupMetadata
  split
  · rfl
  · split <;> simp

theorem processOffsetCommit_of_get?_eq_none {po : PartitionOffsetsRegister} {oc : OffsetCommit}
    {r : LagByGroup} (h : r.get? oc.group = none) : processOffsetCommit po oc r = r := by
  simp [processOffsetCommit, h]

theorem get?_processOffsetCommit (po : PartitionOffsetsRegister) (oc : OffsetCommit)
    (r : LagByGroup) (g : String) :
    (processOffsetCommit po oc r).get? g =
      if g = oc.group then (r.get? g).map fun gwl =>
        { gwl with
          lagByTopicPartition := gwl.lagByTopicPartition.upsert oc.topicPartition
            (fun lwo => { lwo with lag := some (commitLag po oc) }) ⟨some (commitLag po oc), none⟩ }
      else r.get? g := by
  unfold processOffsetCommit
  split
  · by_cases hg : g = oc.group <;> simp [hg]
  · next h => by_cases hg : g = oc.group <;> simp [hg, h]

/-- An applied commit sets the lag of its own entry and of no other. -/
theorem lagAt_processOffsetCommit (po : PartitionOffsetsRegister) (oc : OffsetCommit)
    (r : LagByGroup) (g : String) (tp : TopicPartition) :
    (processOffsetCommit po oc r).lagAt g tp =
      if g = oc.group ∧ tp = oc.topicPartition ∧ r.contains g then some (commitLag po oc)
      else r.lagAt g tp := by
  simp only [LagByGroup.lagAt, LagByGroup.entryAt, get?_processOffsetCommit]
  by_cases hg : g = oc.group
  · subst hg
    cases hr : r.get? oc.group with
    | none => simp [hr, HashMap.contains]
    | some gwl =>
      by_cases ht : tp = oc.topicPartition
      · subst ht
        cases hl : gwl.lagByTopicPartition.get? oc.topicPartition <;>
          simp [hr, hl, HashMap.contains]
      · simp [ht, hr]
  · simp [hg]

/-- A commit of a known group sets its entry's `Lag`, keeps its owner, changes nothing else. -/
theorem processOffsetCommit_touches_one_entry (po : PartitionOffsetsRegister) (oc : OffsetCommit)
    (r : LagByGroup) :
    (r.get? oc.group = none → processOffsetCommit po oc r = r) ∧
    ∀ gwl, r.get? oc.group = some gwl →
      (∀ g, g ≠ oc.group → (processOffsetCommit po oc r).get? g = r.get? g) ∧
      ∃ gwl', (processOffsetCommit po oc r).get? oc.group = some gwl' ∧ gwl'.group = gwl.group ∧
        gwl'.lagByTopicPartition.get? ⟨oc.topic, asU32 oc.partition⟩ =
          some ⟨some
            { offset := asU64 oc.offset
              offsetTimestamp := oc.commitTimestamp
              timestamp := oc.commitTimestamp
              offsetLag :=
                (po.estimateOffsetLag ⟨oc.topic, asU32 oc.partition⟩ (asU64 oc.offset)).getD 0
              timeLag := (po.estimateTimeLag ⟨oc.topic, asU32 oc.partition⟩ (asU64 oc.offset)
                oc.commitTimestamp).getD 0 },
            (gwl.lagByTopicPartition.get? ⟨oc.topic, asU32 oc.partition⟩).bind LagWithOwner.owner⟩ ∧
        ∀ tp, tp ≠ ⟨oc.topic, asU32 oc.partition⟩ →
          gwl'.lagByTopicPartition.get? tp = gwl.lagByTopicPartition.get? tp := by
  refine ⟨processOffsetCommit_of_get?_eq_none, fun gwl hr =>
    ⟨fun g hg => by simp [get?_processOffsetCommit, hg], ?_⟩⟩
  refine ⟨{ gwl with
      lagByTopicPartition := gwl.lagByTopicPartition.upsert oc.topicPartition
        (fun lwo => { lwo with lag := some (commitLag po oc) }) ⟨some (commitLag po oc), none⟩ },
    by simp [get?_processOffsetCommit, hr], rfl, ?_,
    fun tp ht => by simp [OffsetCommit.topicPartition, ht]⟩
  cases h : gwl.lagByTopicPartition.get? oc.topicPartition <;>
    simp_all [commitLag, OffsetCommit.topicPartition]

theorem get?_setOwners (owners : List (TopicPartition × Member))
    (m : HashMap TopicPartition LagWithOwner) (tp : TopicPartition) :
    (setOwners owners m).get? tp = (m.get? tp).map fun lwo =>
      ((owners.reverse.lookup tp).map fun o => { lwo with owner := some o }).getD lwo := by
  induction owners generalizing m with
  | nil => simp [setOwners]
  | cons e owners ih =>
    obtain ⟨tp', o⟩ := e
    simp only [setOwners, List.foldl_cons] at ih ⊢
    rw [ih, HashMap.get?_modify, List.reverse_cons, List.lookup_append]
    by_cases ht : tp = tp'
    · subst ht
      cases hl : owners.reverse.lookup tp <;> cases hm : m.get? tp <;> simp [hl, hm]
    · cases hl : owners.reverse.lookup tp <;> cases hm : m.get? tp <;>
        simp [ht, hl, hm, List.lookup_cons, beq_false_of_ne ht]

theorem lag_of_get?_setOwners {owners : List (TopicPartition × Member)}
    {m : HashMap TopicPartition LagWithOwner} {tp : TopicPartition} {lwo' : LagWithOwner}
    (h : (setOwners owners m).get? tp = some lwo') :
    ∃ lwo, m.get? tp = some lwo ∧ lwo'.lag = lwo.lag := by
  rw [get?_setOwners, Option.map_eq_some'] at h
  obtain ⟨lwo, hm, rfl⟩ := h
  exact ⟨lwo, hm, by cases owners.reverse.lookup tp <;> rfl⟩

theorem get?_processGroupMetadata (gm : GroupMetadata) (r : LagByGroup) (g : String) :
    (processGroupMetadata gm r).get? g =
      if g = gm.group ∧ gm.members ≠ [] then (r.get? g).map fun gwl =>
        { gwl with
          lagByTopicPartition := setOwners (newTpToOwner gm).toList
            (gwl.lagByTopicPartition.retain fun tp _ => (newTpToOwner gm).contains tp) }
      else r.get? g := by
  unfold processGroupMetadata
  by_cases hm : gm.members = []
  · simp [hm]
  · rw [if_neg (by simpa [List.isEmpty_iff] using hm)]
    split
    · by_cases hg : g = gm.group <;> simp [hm, hg]
    · next h => by_cases hg : g = gm.group <;> simp [hm, hg, h]

/-- A partition's owner in `new_tp_to_owner` is the last member listing the partition. -/
theorem get?_newTpToOwner (gm : GroupMetadata) (tp : TopicPartition) :
    (newTpToOwner gm).get? tp = (gm.lastClaimant tp).map MemberMetadata.owner := by
  rw [newTpToOwner, HashMap.get?_fromList, HashMap.lookup_reverse_flatMap _ _ MemberMetadata.owner]
  · unfold GroupMetadata.lastClaimant
    congr 2
    funext m
    simp only [HashMap.mem_keys_fromList, List.map_append, MemberMetadata.topicPartitions,
      List.mem_append]
    simp [List.map_map, Function.comp_def]
  · intro m e he
    obtain ⟨tp, o⟩ := e
    rcases List.mem_append.mp (HashMap.mem_of_mem_fromList he) with he | he <;>
      obtain ⟨_, -, h⟩ := List.mem_map.mp (HashMap.mem_of_mem_fromList he) <;>
      exact (Prod.mk.inj h).2.symm

theorem lastClaimant_isSome_iff (gm : GroupMetadata) (tp : TopicPartition) :
    (gm.lastClaimant tp).isSome ↔ ∃ m ∈ gm.members, tp ∈ m.topicPartitions := by
  simp [GroupMetadata.lastClaimant]

/-- An entry stays when some member lists its partition, and goes to the last such member. -/
theorem get?_setOwners_retain (gm : GroupMetadata) (m : HashMap TopicPartition LagWithOwner)
    (tp : TopicPartition) :
    (setOwners (newTpToOwner gm).toList
        (m.retain fun tp _ => (newTpToOwner gm).contains tp)).get? tp =
      (gm.lastClaimant tp).bind fun c =>
        (m.get? tp).map fun lwo => { lwo with owner := some c.owner } := by
  rw [get?_setOwners, HashMap.lookup_reverse_toList, HashMap.get?_retain, get?_newTpToOwner]
  cases hc : gm.lastClaimant tp <;> cases m.get? tp <;>
    simp [HashMap.contains, get?_newTpToOwner, hc, Option.filter]

/-- Group metadata only drops entries and sets owners: every lag it leaves was there. -/
theorem lagAt_processGroupMetadata {gm : GroupMetadata} {r : LagByGroup} {g : String}
    {tp : TopicPartition} {l : Lag} (h : (processGroupMetadata gm r).lagAt g tp = some l) :
    r.lagAt g tp = some l := by
  rw [LagByGroup.lagAt, LagByGroup.entryAt, get?_processGroupMetadata] at h
  split_ifs at h
  · simp only [Option.bind_eq_some, Option.map_eq_some'] at h
    obtain ⟨lwo', ⟨-, ⟨gwl, hr, rfl⟩, he⟩, hl⟩ := h
    obtain ⟨lwo, he0, hlag⟩ := lag_of_get?_setOwners he
    rw [HashMap.get?_retain, Option.filter_eq_some] at he0
    simp [LagByGroup.lagAt, LagByGroup.entryAt, hr, Option.mem_def.mp he0.1, ← hlag, hl]
  · exact h

/-- Group metadata prunes its group's entries to the listed partitions and re-owns them. -/
theorem processGroupMetadata_prunes_and_reowns (gm : GroupMetadata) (r : LagByGroup) :
    (gm.members = [] ∨ r.get? gm.group = none → processGroupMetadata gm r = r) ∧
    ∀ gwl, gm.members ≠ [] → r.get? gm.group = some gwl →
      (∀ g, g ≠ gm.group → (processGroupMetadata gm r).get? g = r.get? g) ∧
      ∃ gwl', (processGroupMetadata gm r).get? gm.group = some gwl' ∧ gwl'.group = gwl.group ∧
        (∀ tp, gwl'.lagByTopicPartition.contains tp ↔
          gwl.lagByTopicPartition.contains tp ∧ ∃ m ∈ gm.members, tp ∈ m.topicPartitions) ∧
        ∀ tp lwo', gwl'.lagByTopicPartition.get? tp = some lwo' →
          ∃ lwo m, gwl.lagByTopicPartition.get? tp = some lwo ∧ lwo'.lag = lwo.lag ∧
            gm.lastClaimant tp = some m ∧ lwo'.owner = some m.owner := by
  refine ⟨fun h => ?_, fun gwl hm hr => ⟨fun g hg => by simp [get?_processGroupMetadata, hg], ?_⟩⟩
  · unfold processGroupMetadata
    rcases h with h | h
    · simp [h]
    · split <;> simp [h]
  refine ⟨{ gwl with
      lagByTopicPartition := setOwners (newTpToOwner gm).toList
        (gwl.lagByTopicPartition.retain fun tp _ => (newTpToOwner gm).contains tp) },
    by simp [get?_processGroupMetadata, hm, hr], rfl, fun tp => ?_, fun tp lwo' h => ?_⟩
  · rw [← lastClaimant_isSome_iff, HashMap.contains_iff_get?, get?_setOwners_retain,
      HashMap.contains_iff_get?]
    cases gm.lastClaimant tp <;> cases gwl.lagByTopicPartition.get? tp <;> simp
  · rw [get?_setOwners_retain, Option.bind_eq_some] at h
    obtain ⟨c, hc, h⟩ := h
    obtain ⟨lwo, hlwo, rfl⟩ := Option.map_eq_some'.mp h
    exact ⟨lwo, c, hlwo, rfl, hc, rfl⟩

/-- An applied commit gives its entry the commit's lag and keeps the entry's owner, if any. -/
theorem entryAt_processOffsetCommit (po : PartitionOffsetsRegister) (oc : OffsetCommit)
    (r : LagByGroup) (g : String) (tp : TopicPartition) :
    (processOffsetCommit po oc r).entryAt g tp =
      if g = oc.group ∧ tp = oc.topicPartition ∧ r.contains g then
        some ⟨some (commitLag po oc), (r.entryAt g tp).bind LagWithOwner.owner⟩
      else r.entryAt g tp := by
  simp only [LagByGroup.entryAt, get?_processOffsetCommit]
  by_cases hg : g = oc.group
  · subst hg
    cases hr : r.get? oc.group with
    | none => simp [hr, HashMap.contains]
    | some gwl =>
      by_cases ht : tp = oc.topicPartition
      · subst ht
        cases hl : gwl.lagByTopicPartition.get? oc.topicPartition <;>
          simp [hr, hl, HashMap.contains]
      · simp [ht, hr]
  · simp [hg]

/-- The `as` casts of `process_offset_commit` wrap negative partitions and offsets around. -/
theorem processOffsetCommit_wraps_negative (po : PartitionOffsetsRegister) (oc : OffsetCommit)
    (r : LagByGroup) (hg : r.contains oc.group)
    (hp : -2 ^ 31 ≤ oc.partition ∧ oc.partition < 2 ^ 31)
    (ho : -2 ^ 63 ≤ oc.offset ∧ oc.offset < 2 ^ 63) :
    ∃ l, (processOffsetCommit po oc r).lagAt oc.group
        ⟨oc.topic, (if oc.partition < 0 then oc.partition + 2 ^ 32 else oc.partition).toNat⟩ =
          some l ∧
      (l.offset : Int) = if oc.offset < 0 then oc.offset + 2 ^ 64 else oc.offset := by
  refine ⟨commitLag po oc, ?_, asU64_of_i64 ho⟩
  rw [lagAt_processOffsetCommit, ← asU32_of_i32 hp, if_pos ⟨rfl, rfl, hg⟩]

theorem map_group_processOffsetCommit (po : PartitionOffsetsRegister) (oc : OffsetCommit)
    (r : LagByGroup) (g : String) :
    ((processOffsetCommit po oc r).get? g).map GroupWithLag.group =
      (r.get? g).map GroupWithLag.group := by
  rw [get?_processOffsetCommit]
  split_ifs <;> simp [Option.map_map, Function.comp_def]

/-- Group metadata keeps a claimed entry of its group and hands it to the last claimant. -/
theorem entryAt_processGroupMetadata (gm : GroupMetadata) (r : LagByGroup) (g : String)
    (tp : TopicPartition) :
    (processGroupMetadata gm r).entryAt g tp =
      if g = gm.group ∧ gm.members ≠ [] then
        (gm.lastClaimant tp).bind fun c =>
          (r.entryAt g tp).map fun lwo => { lwo with owner := some c.owner }
      else r.entryAt g tp := by
  simp only [LagByGroup.entryAt, get?_processGroupMetadata]
  split_ifs
  · cases r.get? g with
    | none => cases gm.lastClaimant tp <;> rfl
    | some gwl => exact get?_setOwners_retain gm gwl.lagByTopicPartition tp
  · rfl

theorem map_group_processGroupMetadata (gm : GroupMetadata) (r : LagByGroup) (g : String) :
    ((processGroupMetadata gm r).get? g).map GroupWithLag.group =
      (r.get? g).map GroupWithLag.group := by
  rw [get?_processGroupMetadata]
  split_ifs <;> simp [Option.map_map, Function.comp_def]

end ConsumerLag
