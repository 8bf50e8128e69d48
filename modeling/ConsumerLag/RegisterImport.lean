import ConsumerLag.Types

/-!
# Importing the consumer groups register

`process_consumer_groups` asks the `ConsumerGroupsRegister` once for the group names and once
per listed group, and writes each group under its own write lock. Here the run is given what
those calls returned: `knownGroups` from `get_groups` and `getGroup name` from the `get_group`
call for `name`. `ImportInterleaving` says which contents of the register they can come from;
here they are arbitrary, and the import is shown to be the reference join when all of them
come from one content.
-/
namespace ConsumerLag

/-- Modelled from the spec: the content of the `ConsumerGroupsRegister`, group name to group. -/
abbrev ConsumerGroupsContent := HashMap String GroupWithMembers

/-- What one `process_consumer_groups` run reads from the `ConsumerGroupsRegister`. -/
structure ConsumerGroupsReads where
  knownGroups : HashSet String
  getGroup : String → Option GroupWithMembers

/-- Modelled from the spec: `get_groups` and `get_group` answered from the content `c`. -/
def ConsumerGroupsReads.ofContent (c : ConsumerGroupsContent) : ConsumerGroupsReads :=
  ⟨c.keySet, c.get?⟩

/-- `members_by_topic_partition`: each member's assignment, collected member after member. -/
def membersByTopicPartition (gwm : GroupWithMembers) : HashMap TopicPartition Member :=
  HashMap.fromList <| gwm.members.toList.flatMap fun e =>
    (HashMap.fromList (e.2.assignment.keys.map (·, e.2.member))).toList

/-- The `Insert` branch: every owned partition with its owner and no lag. -/
def newGroupWithLag (group : Group) (mbtp : HashMap TopicPartition Member) : GroupWithLag :=
  ⟨group, HashMap.fromList (mbtp.toList.map fun e => (e.1, ⟨none, some e.2⟩))⟩

/-- The `Update` branch: drop what no member owns, then set or add each owned partition. -/
def updateGroupWithLag (group : Group) (mbtp : HashMap TopicPartition Member)
    (gwl : GroupWithLag) : GroupWithLag :=
  ⟨group, mbtp.toList.foldl
    (fun m e => m.upsert e.1 (fun lwo => { lwo with owner := some e.2 }) ⟨none, some e.2⟩)
    (gwl.lagByTopicPartition.retain fun tp _ => mbtp.contains tp)⟩

/-- The loop's body for a listed group; an `error` is the `panic!` of the `Update` branch. -/
def importGroup (name : String) (gwm : GroupWithMembers) (r : LagByGroup) :
    Except String LagByGroup :=
  let mbtp := membersByTopicPartition gwm
  if r.contains name then
    match r.get? name with
    | some _ => .ok (r.modify name (updateGroupWithLag gwm.group mbtp))
    | none => .error ("GroupWithLag for \"" ++ name ++ "\" could not be found (fatal)")
  else .ok (r.insert name (newGroupWithLag gwm.group mbtp))

/-- One iteration of the loop over the known groups. -/
def importStep (reads : ConsumerGroupsReads) (r : LagByGroup) (name : String) :
    Except String LagByGroup :=
  match reads.getGroup name with
  | some gwm => importGroup name gwm r
  | none => .ok r

/-- `process_consumer_groups`. -/
def processConsumerGroups (reads : ConsumerGroupsReads) (r : LagByGroup) :
    Except String LagByGroup := do
  let r ← reads.knownGroups.keys.foldlM (importStep reads) r
  return r.retain fun g _ => reads.knownGroups.contains g

/-- What the loop makes of a group's entry `old` when `get_group` returned `gwm`. -/
def joinGroup (old : Option GroupWithLag) (gwm : GroupWithMembers) : GroupWithLag :=
  match old with
  | some gwl => updateGroupWithLag gwm.group (membersByTopicPartition gwm) gwl
  | none => newGroupWithLag gwm.group (membersByTopicPartition gwm)

/-- `importGroup` with the `Update` branch taken only for a present group. -/
def importedGroup (name : String) (gwm : GroupWithMembers) (r : LagByGroup) : LagByGroup :=
  if r.contains name then r.modify name (updateGroupWithLag gwm.group (membersByTopicPartition gwm))
  else r.insert name (newGroupWithLag gwm.group (membersByTopicPartition gwm))

/-- `importStep` on `importedGroup`. -/
def importedStep (reads : ConsumerGroupsReads) (r : LagByGroup) (name : String) : LagByGroup :=
  match reads.getGroup name with
  | some gwm => importedGroup name gwm r
  | none => r

theorem importGroup_eq (name : String) (gwm : GroupWithMembers) (r : LagByGroup) :
    importGroup name gwm r = .ok (importedGroup name gwm r) := by
  unfold importGroup importedGroup
  split
  · next h =>
    obtain ⟨gwl, hg⟩ := HashMap.contains_iff_get?.mp h
    simp [hg]
  · rfl

theorem importStep_eq (reads : ConsumerGroupsReads) (r : LagByGroup) (name : String) :
    importStep reads r name = .ok (importedStep reads r name) := by
  unfold importStep importedStep
  split
  · exact importGroup_eq _ _ _
  · rfl

theorem foldlM_importStep (reads : ConsumerGroupsReads) (names : List String) (r : LagByGroup) :
    names.foldlM (importStep reads) r = .ok (names.foldl (importedStep reads) r) := by
  induction names generalizing r with
  | nil => rfl
  | cons name names ih =>
    simp only [List.foldlM_cons, importStep_eq, List.foldl_cons]
    exact ih _

/-- The run never panics, and it is the loop followed by the final `retain`. -/
theorem processConsumerGroups_eq (reads : ConsumerGroupsReads) (r : LagByGroup) :
    processConsumerGroups reads r = .ok ((reads.knownGroups.keys.foldl (importedStep reads) r).retain
      fun g _ => reads.knownGroups.contains g) := by
  simp only [processConsumerGroups, foldlM_importStep]
  rfl

theorem get?_importedGroup (name : String) (gwm : GroupWithMembers) (r : LagByGroup) (g : String) :
    (importedGroup name gwm r).get? g =
      if g = name then some (joinGroup (r.get? name) gwm) else r.get? g := by
  unfold importedGroup
  split
  · next h =>
    obtain ⟨gwl, hg⟩ := HashMap.contains_iff_get?.mp h
    by_cases hn : g = name <;> simp [hn, hg, joinGroup]
  · next h =>
    have hn : r.get? name = none := by simpa [HashMap.contains] using h
    by_cases hg : g = name <;> simp [hg, hn, joinGroup]

/-- Each listed group is joined once, from its entry before the run; no other entry moves. -/
theorem get?_foldl_importedStep (reads : ConsumerGroupsReads) {names : List String}
    (hn : names.Nodup) (r : LagByGroup) (g : String) :
    (names.foldl (importedStep reads) r).get? g =
      match reads.getGroup g with
      | some gwm => if g ∈ names then some (joinGroup (r.get? g) gwm) else r.get? g
      | none => r.get? g := by
  induction names generalizing r with
  | nil => cases reads.getGroup g <;> rfl
  | cons name names ih =>
    rw [List.nodup_cons] at hn
    rw [List.foldl_cons, ih hn.2]
    unfold importedStep
    by_cases hg : g = name
    · subst hg
      cases reads.getGroup g <;> simp [get?_importedGroup, hn.1]
    · cases reads.getGroup g <;> cases reads.getGroup name <;> simp [get?_importedGroup, hg]

private theorem lookup_map_snd {W : Type} (l : List (TopicPartition × Member))
    (f : Member → W) (k : TopicPartition) :
    (l.map fun e => (e.1, f e.2)).lookup k = (l.lookup k).map f := by
  induction l with
  | nil => rfl
  | cons e l ih =>
    obtain ⟨a, b⟩ := e
    by_cases hk : k = a
    · simp [hk]
    · simp [List.lookup_cons, beq_false_of_ne hk, ih]

/-- The `Update` loop sets each owned partition's owner and keeps the lag it had. -/
theorem get?_foldl_upsertOwner (l : List (TopicPartition × Member))
    (m : HashMap TopicPartition LagWithOwner) (tp : TopicPartition) :
    (l.foldl (fun m e => m.upsert e.1 (fun lwo => { lwo with owner := some e.2 }) ⟨none, some e.2⟩)
        m).get? tp =
      match l.reverse.lookup tp with
      | some o => some ⟨(m.get? tp).bind LagWithOwner.lag, some o⟩
      | none => m.get? tp := by
  induction l generalizing m with
  | nil => rfl
  | cons e l ih =>
    obtain ⟨a, o⟩ := e
    rw [List.foldl_cons, ih, List.reverse_cons, List.lookup_append]
    by_cases hk : tp = a
    · subst hk
      cases l.reverse.lookup tp <;> cases hm : m.get? tp <;> simp [hm]
    · cases l.reverse.lookup tp <;> simp [hk, List.lookup_cons, beq_false_of_ne hk]

/-- A joined group owns its members' partitions and keeps each entry's lag. -/
theorem get?_joinGroup (old : Option GroupWithLag) (gwm : GroupWithMembers) (tp : TopicPartition) :
    (joinGroup old gwm).lagByTopicPartition.get? tp =
      ((membersByTopicPartition gwm).get? tp).map fun m =>
        ⟨(old.bind fun gwl => gwl.lagByTopicPartition.get? tp).bind LagWithOwner.lag, some m⟩ := by
  cases old with
  | none =>
    have hn : ((membersByTopicPartition gwm).toList.map fun e =>
        (e.1, (⟨none, some e.2⟩ : LagWithOwner))).map Prod.fst |>.Nodup := by
      simpa [Function.comp_def] using (membersByTopicPartition gwm).nodup
    simp only [joinGroup, newGroupWithLag]
    rw [HashMap.get?_fromList_of_nodup hn]
    simpa [HashMap.get?] using lookup_map_snd _ (fun m => (⟨none, some m⟩ : LagWithOwner)) tp
  | some gwl =>
    simp only [joinGroup, updateGroupWithLag, get?_foldl_upsertOwner,
      HashMap.lookup_reverse_toList, Option.bind_some]
    cases h : (membersByTopicPartition gwm).get? tp with
    | none => simp [HashMap.contains, h]
    | some m =>
      simp only [HashMap.get?_retain, Option.map_some', HashMap.contains, h, Option.isSome_some]
      cases hl : gwl.lagByTopicPartition.get? tp <;> simp [hl, Option.filter]

theorem owner_of_get?_membersByTopicPartition {gwm : GroupWithMembers} {tp : TopicPartition}
    {m : Member} (h : (membersByTopicPartition gwm).get? tp = some m) :
    ∃ id mwa, (id, mwa) ∈ gwm.members.toList ∧ mwa.assignment.contains tp ∧ m = mwa.member := by
  rw [HashMap.get?_eq_some_iff] at h
  obtain ⟨⟨id, mwa⟩, he, hm⟩ := List.mem_flatMap.mp (HashMap.mem_of_mem_fromList h)
  obtain ⟨tp', ht, hp⟩ := List.mem_map.mp (HashMap.mem_of_mem_fromList hm)
  obtain ⟨rfl, rfl⟩ := Prod.mk.inj hp
  exact ⟨id, mwa, he, HashMap.contains_iff_mem_keys.mpr ht, rfl⟩

theorem contains_membersByTopicPartition (gwm : GroupWithMembers) (tp : TopicPartition) :
    (membersByTopicPartition gwm).contains tp ↔
      ∃ id mwa, (id, mwa) ∈ gwm.members.toList ∧ mwa.assignment.contains tp := by
  constructor
  · intro h
    obtain ⟨m, hm⟩ := HashMap.contains_iff_get?.mp h
    obtain ⟨id, mwa, he, ht, -⟩ := owner_of_get?_membersByTopicPartition hm
    exact ⟨id, mwa, he, ht⟩
  · rintro ⟨id, mwa, he, ht⟩
    have hc : (HashMap.fromList (mwa.assignment.keys.map (·, mwa.member))).contains tp :=
      (HashMap.contains_fromList _ _).mpr
        ⟨mwa.member, List.mem_map.mpr ⟨tp, HashMap.contains_iff_mem_keys.mp ht, rfl⟩⟩
    obtain ⟨m, hm⟩ := HashMap.contains_iff_get?.mp hc
    exact (HashMap.contains_fromList _ _).mpr
      ⟨m, List.mem_flatMap.mpr ⟨(id, mwa), he, HashMap.get?_eq_some_iff.mp hm⟩⟩

@[simp] theorem joinGroup_group (old : Option GroupWithLag) (gwm : GroupWithMembers) :
    (joinGroup old gwm).group = gwm.group := by
  cases old <;> rfl

/-- A joined group keeps the lags of its entries. -/
theorem lagAt_of_get?_eq_joinGroup {r r' : LagByGroup} {g : String} {gwm : GroupWithMembers}
    (h : r'.get? g = some (joinGroup (r.get? g) gwm)) {tp : TopicPartition} {l : Lag}
    (hl : r'.lagAt g tp = some l) : r.lagAt g tp = some l := by
  have he : r'.entryAt g tp = (joinGroup (r.get? g) gwm).lagByTopicPartition.get? tp := by
    simp [LagByGroup.entryAt, h]
  rw [LagByGroup.lagAt, he, get?_joinGroup] at hl
  cases hm : (membersByTopicPartition gwm).get? tp with
  | none => simp [hm] at hl
  | some m => simpa [hm, LagByGroup.lagAt, LagByGroup.entryAt] using hl

theorem lagAt_retain {r : LagByGroup} {p : String → GroupWithLag → Bool} {g : String}
    {tp : TopicPartition} {l : Lag} (h : LagByGroup.lagAt (r.retain p) g tp = some l) :
    r.lagAt g tp = some l := by
  simp only [LagByGroup.lagAt, LagByGroup.entryAt, HashMap.get?_retain] at h ⊢
  cases hg : r.get? g with
  | none => simp [hg] at h
  | some gwl =>
    rw [hg] at h
    by_cases hp : p g gwl <;> simp_all [Option.filter_some]

/-- Whatever the reads, every lag the import leaves is the lag its entry had before. -/
theorem lagAt_processConsumerGroups {reads : ConsumerGroupsReads} {r r' : LagByGroup}
    (h : processConsumerGroups reads r = .ok r') {g : String} {tp : TopicPartition} {l : Lag}
    (hl : r'.lagAt g tp = some l) : r.lagAt g tp = some l := by
  rw [processConsumerGroups_eq, Except.ok.injEq] at h
  subst h
  have hf := lagAt_retain hl
  have hn : reads.knownGroups.keys.Nodup := reads.knownGroups.nodup
  have cases : (reads.knownGroups.keys.foldl (importedStep reads) r).get? g = r.get? g ∨
      ∃ gwm, (reads.knownGroups.keys.foldl (importedStep reads) r).get? g =
        some (joinGroup (r.get? g) gwm) := by
    rw [get?_foldl_importedStep _ hn]
    cases reads.getGroup g with
    | none => exact .inl rfl
    | some gwm => split_ifs <;> simp
  rcases cases with he | ⟨gwm, he⟩
  · simpa [LagByGroup.lagAt, LagByGroup.entryAt, he] using hf
  · exact lagAt_of_get?_eq_joinGroup he hf

/-- Read from one content, the import leaves its groups, each joined with its old entry. -/
theorem get?_processConsumerGroups_ofContent (S : ConsumerGroupsContent) (r : LagByGroup) :
    ∃ r', processConsumerGroups (.ofContent S) r = .ok r' ∧
      ∀ g, r'.get? g = (S.get? g).map (joinGroup (r.get? g)) := by
  refine ⟨_, processConsumerGroups_eq _ _, fun g => ?_⟩
  have hmem : g ∈ S.keySet.keys ↔ S.contains g := by
    rw [← HashMap.contains_iff_mem_keys, HashMap.contains_keySet]
  have hn : (ConsumerGroupsReads.ofContent S).knownGroups.keys.Nodup := S.keySet.nodup
  rw [HashMap.get?_retain, get?_foldl_importedStep _ hn]
  simp only [ConsumerGroupsReads.ofContent, HashMap.contains_keySet]
  cases hS : S.get? g with
  | none => cases r.get? g <;> simp [HashMap.contains, hS, Option.filter]
  | some gwm =>
    have hc : S.contains g := by simp [HashMap.contains, hS]
    simp [hmem.mpr hc, hc, Option.filter]

/-- The import of one content never panics and is the reference join. -/
theorem processConsumerGroups_reference_join (S : ConsumerGroupsContent) (r : LagByGroup) :
    ∃ r', processConsumerGroups (.ofContent S) r = .ok r' ∧
      (∀ g, r'.contains g ↔ S.contains g) ∧
      ∀ g gwm, S.get? g = some gwm → ∃ gwl, r'.get? g = some gwl ∧ gwl.group = gwm.group ∧
        (∀ tp, gwl.lagByTopicPartition.contains tp ↔
          ∃ id mwa, (id, mwa) ∈ gwm.members.toList ∧ mwa.assignment.contains tp) ∧
        ∀ tp lwo, gwl.lagByTopicPartition.get? tp = some lwo →
          (∃ id mwa, (id, mwa) ∈ gwm.members.toList ∧ mwa.assignment.contains tp ∧
            lwo.owner = some mwa.member) ∧
          lwo.lag = r.lagAt g tp := by
  obtain ⟨r', hr', hget⟩ := get?_processConsumerGroups_ofContent S r
  refine ⟨r', hr', fun g => by simp [HashMap.contains, hget], fun g gwm hS =>
    ⟨joinGroup (r.get? g) gwm, by simp [hget, hS], joinGroup_group _ _, fun tp => ?_,
      fun tp lwo he => ?_⟩⟩
  · rw [← contains_membersByTopicPartition]
    simp [HashMap.contains, get?_joinGroup]
  · rw [get?_joinGroup, Option.map_eq_some'] at he
    obtain ⟨m, hm, rfl⟩ := he
    obtain ⟨id, mwa, hmem, hc, rfl⟩ := owner_of_get?_membersByTopicPartition hm
    exact ⟨⟨id, mwa, hmem, hc, rfl⟩, rfl⟩

/-- A group after an import: gone if unlisted, joined if read, kept if listed and unread. -/
theorem get?_processConsumerGroups {reads : ConsumerGroupsReads} {r r' : LagByGroup}
    (h : processConsumerGroups reads r = .ok r') (g : String) :
    r'.get? g =
      if reads.knownGroups.contains g then
        match reads.getGroup g with
        | some gwm => some (joinGroup (r.get? g) gwm)
        | none => r.get? g
      else none := by
  rw [processConsumerGroups_eq, Except.ok.injEq] at h
  subst h
  have hn : reads.knownGroups.keys.Nodup := reads.knownGroups.nodup
  rw [HashMap.get?_retain, get?_foldl_importedStep _ hn]
  have hk : g ∈ reads.knownGroups.keys ↔ reads.knownGroups.contains g :=
    HashMap.contains_iff_mem_keys.symm
  cases hc : reads.knownGroups.contains g <;> cases reads.getGroup g <;>
    cases r.get? g <;> simp [hk, hc, Option.filter]

theorem map_group_processConsumerGroups {reads : ConsumerGroupsReads} {r r' : LagByGroup}
    (h : processConsumerGroups reads r = .ok r') (g : String) :
    (r'.get? g).map GroupWithLag.group =
      if reads.knownGroups.contains g then
        match reads.getGroup g with
        | some gwm => some gwm.group
        | none => (r.get? g).map GroupWithLag.group
      else none := by
  rw [get?_processConsumerGroups h]
  split_ifs <;> cases reads.getGroup g <;> simp

/-- An imported entry belongs to its partition's member and keeps its lag. -/
theorem entryAt_processConsumerGroups {reads : ConsumerGroupsReads} {r r' : LagByGroup}
    (h : processConsumerGroups reads r = .ok r') (g : String) (tp : TopicPartition) :
    r'.entryAt g tp =
      if reads.knownGroups.contains g then
        match reads.getGroup g with
        | some gwm => ((membersByTopicPartition gwm).get? tp).map fun m =>
            ⟨(r.entryAt g tp).bind LagWithOwner.lag, some m⟩
        | none => r.entryAt g tp
      else none := by
  simp only [LagByGroup.entryAt, get?_processConsumerGroups h]
  split_ifs <;> cases reads.getGroup g <;> simp [get?_joinGroup]

end ConsumerLag
