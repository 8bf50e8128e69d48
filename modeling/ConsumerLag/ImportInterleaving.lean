import ConsumerLag.RegisterImport

/-!
# An import interleaved with replacements of the consumer groups register

The `ConsumerGroupsRegister` is replaced wholesale by its own task, at any moment.
`process_consumer_groups` reads it through separate calls (`get_groups`, then one `get_group`
per listed name), so a replacement can land between two of them. A run of the import is a
schedule of its own steps and of replacements; each step reads the content current then, and
with no replacement the steps are `process_consumer_groups` of the one content.
-/
namespace ConsumerLag

/-- Where an import stands: before `get_groups`, in the loop over the listed names, or done. -/
inductive ImportPc
  | start
  | loop (known : HashSet String) (todo : List String)
  | done
  deriving DecidableEq

def ImportPc.isDone : ImportPc → Bool
  | done => true
  | _ => false

/-- One step of the import, reading the register's current content `c`. -/
def importTaskStep (c : ConsumerGroupsContent) :
    ImportPc → LagByGroup → Except String (ImportPc × LagByGroup)
  | .start, r => .ok (.loop c.keySet c.keySet.keys, r)
  | .loop known (name :: todo), r => do
    let r ← importStep ⟨known, c.get?⟩ r name
    pure (.loop known todo, r)
  | .loop known [], r => .ok (.done, r.retain fun g _ => known.contains g)
  | .done, r => .ok (.done, r)

/-- The `panic!` of the loop is never reached: every step of the import succeeds. -/
theorem importTaskStep_ok (c : ConsumerGroupsContent) (imp : ImportPc) (r : LagByGroup) :
    ∃ x, importTaskStep c imp r = .ok x := by
  match imp with
  | .start | .done | .loop _ [] => exact ⟨_, rfl⟩
  | .loop _ (_ :: _) => exact ⟨_, by rw [importTaskStep, importStep_eq]; rfl⟩

/-- The import, the register it writes and the content of the consumer groups register. -/
structure ImportConfig where
  pc : ImportPc
  lagByGroup : LagByGroup
  content : ConsumerGroupsContent

/-- A step of the schedule: the import's next step, or a replacement of the content. -/
inductive ImportAction
  | task
  | replace (c : ConsumerGroupsContent)

/-- A computation of `Except` that succeeds went through each of its binds. -/
theorem bind_eq_ok {ε α β : Type} {x : Except ε α} {f : α → Except ε β} {b : β}
    (h : x >>= f = .ok b) : ∃ a, x = .ok a ∧ f a = .ok b := by
  cases x with
  | error e => cases h
  | ok a => exact ⟨a, rfl, h⟩

def importInterleaved : ImportConfig → List ImportAction → Except String ImportConfig
  | cfg, [] => .ok cfg
  | cfg, .task :: acts => do
    let (pc, r) ← importTaskStep cfg.content cfg.pc cfg.lagByGroup
    importInterleaved ⟨pc, r, cfg.content⟩ acts
  | cfg, .replace c :: acts => importInterleaved { cfg with content := c } acts

/-- The contents that the replacements of a schedule put in the register. -/
def ImportAction.replacements (acts : List ImportAction) : List ConsumerGroupsContent :=
  acts.filterMap fun
    | .task => none
    | .replace c => some c

/-- The contents the register holds along a schedule that starts from `c`. -/
def heldContents (c : ConsumerGroupsContent) (acts : List ImportAction) :
    List ConsumerGroupsContent :=
  c :: ImportAction.replacements acts

/-- The content the register holds at each step of the import, along a schedule from `c`. -/
def ImportAction.taskContents (c : ConsumerGroupsContent) :
    List ImportAction → List ConsumerGroupsContent
  | [] => []
  | .task :: acts => c :: taskContents c acts
  | .replace c' :: acts => taskContents c' acts

/-- The reads of an import whose `get_groups` read `S` and whose `get_group` calls read `rest`. -/
def readsAt (S : ConsumerGroupsContent) (rest : List ConsumerGroupsContent) : ConsumerGroupsReads :=
  ⟨S.keySet, fun name => ((S.keySet.keys.zip rest).lookup name).bind fun c => c.get? name⟩

theorem importInterleaved_loop (c : ConsumerGroupsContent) (known : HashSet String)
    (todo : List String) (r : LagByGroup) :
    importInterleaved ⟨.loop known todo, r, c⟩ (List.replicate (todo.length + 1) .task) =
      .ok ⟨.done, (todo.foldl (importedStep ⟨known, c.get?⟩) r).retain
        (fun g _ => known.contains g), c⟩ := by
  induction todo generalizing r with
  | nil => rfl
  | cons name todo ih =>
    rw [List.length_cons, List.replicate_succ, importInterleaved, importTaskStep, importStep_eq]
    exact ih _

/-- With no replacement, the import's steps are `process_consumer_groups` of the content. -/
theorem importInterleaved_one_content (c : ConsumerGroupsContent) (r0 : LagByGroup) :
    importInterleaved ⟨.start, r0, c⟩ (List.replicate (c.toList.length + 2) .task) =
      (processConsumerGroups (.ofContent c) r0).map fun r => ⟨.done, r, c⟩ := by
  have hlen : c.keySet.keys.length = c.toList.length := by simp [HashMap.keys, HashMap.keySet]
  rw [processConsumerGroups_eq, List.replicate_succ, importInterleaved, importTaskStep]
  show importInterleaved ⟨.loop c.keySet c.keySet.keys, r0, c⟩
    (List.replicate (c.toList.length + 1) .task) = _
  rw [← hlen, importInterleaved_loop]
  rfl

/-- The member of the failing input. -/
def memberM : Member := ⟨"m", "client-m", "host-m"⟩

/-- Groups `a` and `b`, their member assigned `(t, 0)` in `a` and `(t, 1)` in `b`. -/
def groupsAB : ConsumerGroupsContent :=
  HashMap.fromList [
    ("a", ⟨⟨"a", "Stable", "range", "consumer"⟩,
      HashMap.fromList [("m", ⟨memberM, HashMap.fromList [(⟨"t", 0⟩, ())]⟩)]⟩),
    ("b", ⟨⟨"b", "Stable", "range", "consumer"⟩,
      HashMap.fromList [("m", ⟨memberM, HashMap.fromList [(⟨"t", 1⟩, ())]⟩)]⟩)]

/-- The same content without group `b`. -/
def groupsA : ConsumerGroupsContent := groupsAB.retain fun g _ => g = "a"

/-- A register with group `a` empty and group `b` holding a lag for `(t, 0)`. -/
def registerAB : LagByGroup :=
  HashMap.fromList [
    ("a", ⟨⟨"a", "Stable", "range", "consumer"⟩, HashMap.empty⟩),
    ("b", ⟨⟨"b", "Stable", "range", "consumer"⟩,
      HashMap.fromList [(⟨"t", 0⟩, ⟨some ⟨10, 0, 0, 0, 0⟩, some memberM⟩)]⟩)]

/-- Group `b` replaced away after `get_groups` keeps an entry no one-content import keeps. -/
theorem importInterleaved_not_one_content :
    (importInterleaved ⟨.start, registerAB, groupsAB⟩
        [.task, .task, .replace groupsA, .task, .task]).toOption.map
        (fun cfg => (cfg.pc.isDone, cfg.lagByGroup.entryAt "b" ⟨"t", 0⟩)) =
      some (true, some ⟨some ⟨10, 0, 0, 0, 0⟩, some memberM⟩) ∧
    ∀ S ∈ heldContents groupsAB [.task, .task, .replace groupsA, .task, .task],
      (processConsumerGroups (.ofContent S) registerAB).toOption.map
        (fun r => r.entryAt "b" ⟨"t", 0⟩) = some none := by
  decide

theorem foldl_importedStep_congr (known : HashSet String) {G G' : String → Option GroupWithMembers}
    {names : List String} (h : ∀ n ∈ names, G n = G' n) (r : LagByGroup) :
    names.foldl (importedStep ⟨known, G⟩) r = names.foldl (importedStep ⟨known, G'⟩) r := by
  induction names generalizing r with
  | nil => rfl
  | cons n names ih =>
    have hn : importedStep ⟨known, G⟩ r n = importedStep ⟨known, G'⟩ r n := by
      simp only [importedStep, h n (List.mem_cons_self _ _)]
    rw [List.foldl_cons, List.foldl_cons, hn, ih fun m hm => h m (List.mem_cons_of_mem _ hm)]

/-- What the import has read from the contents `held`: one content's names, one answer a group. -/
def ImportReadFrom (r0 : LagByGroup) (held : List ConsumerGroupsContent) :
    ImportPc → LagByGroup → Prop
  | .start, r => r = r0
  | .loop known todo, r => (∃ S ∈ held, known = S.keySet) ∧
      ∃ visited getGroup, known.keys = visited ++ todo ∧
        (∀ name, ∃ S ∈ held, getGroup name = S.get? name) ∧
        r = visited.foldl (importedStep ⟨known, getGroup⟩) r0
  | .done, r => ∃ reads : ConsumerGroupsReads, processConsumerGroups reads r0 = .ok r ∧
      (∃ S ∈ held, reads.knownGroups = S.keySet) ∧
      ∀ name, ∃ S ∈ held, reads.getGroup name = S.get? name

theorem importReadFrom_mono {r0 : LagByGroup} {held held' : List ConsumerGroupsContent}
    (hh : ∀ S ∈ held, S ∈ held') {pc : ImportPc} {r : LagByGroup}
    (h : ImportReadFrom r0 held pc r) : ImportReadFrom r0 held' pc r := by
  cases pc with
  | start => exact h
  | loop known todo =>
    obtain ⟨⟨S, hS, hk⟩, visited, G, hv, hG, hr⟩ := h
    exact ⟨⟨S, hh S hS, hk⟩, visited, G, hv, fun n => (hG n).imp fun S h => ⟨hh S h.1, h.2⟩, hr⟩
  | done =>
    obtain ⟨reads, hr, ⟨S, hS, hk⟩, hG⟩ := h
    exact ⟨reads, hr, ⟨S, hh S hS, hk⟩, fun n => (hG n).imp fun S h => ⟨hh S h.1, h.2⟩⟩

/-- A step of the import reads the content current then, which the register holds. -/
theorem importReadFrom_step {r0 : LagByGroup} {held : List ConsumerGroupsContent}
    {c : ConsumerGroupsContent} (hc : c ∈ held) {pc pc' : ImportPc} {r r' : LagByGroup}
    (h : ImportReadFrom r0 held pc r) (hs : importTaskStep c pc r = .ok (pc', r')) :
    ImportReadFrom r0 held pc' r' := by
  cases pc with
  | start =>
    cases hs
    exact ⟨⟨c, hc, rfl⟩, [], c.get?, rfl, fun n => ⟨c, hc, rfl⟩, h⟩
  | loop known todo =>
    obtain ⟨hk, visited, G, hv, hG, rfl⟩ := h
    cases todo with
    | nil =>
      cases hs
      exact ⟨⟨known, G⟩, by rw [processConsumerGroups_eq, hv, List.append_nil], hk, hG⟩
    | cons name todo =>
      have hn : name ∉ visited := by
        have hnd : (visited ++ name :: todo).Nodup := hv ▸ known.nodup
        exact fun hm => (List.nodup_append.mp hnd).2.2 hm (List.mem_cons_self _ _)
      simp only [importTaskStep, importStep_eq] at hs
      cases hs
      refine ⟨hk, visited ++ [name], fun n => if n = name then c.get? n else G n, by simp [hv],
        fun n => ?_, ?_⟩
      · by_cases h : n = name
        · exact ⟨c, hc, by simp [h]⟩
        · simpa [h] using hG n
      · have hsame : ∀ n ∈ visited, G n = (fun n => if n = name then c.get? n else G n) n :=
          fun n hm => by simp [show n ≠ name from fun h => hn (h ▸ hm)]
        rw [List.foldl_append, foldl_importedStep_congr known hsame]
        simp [importedStep]
  | done =>
    cases hs
    exact h

theorem importInterleaved_done (r : LagByGroup) (acts : List ImportAction) :
    ∀ c, ∃ c', importInterleaved ⟨.done, r, c⟩ acts = .ok ⟨.done, r, c'⟩ := by
  induction acts with
  | nil => exact fun c => ⟨c, rfl⟩
  | cons a acts ih =>
    intro c
    cases a with
    | task => exact ih c
    | replace c' => exact ih c'

theorem importInterleaved_loop_reads (known : HashSet String) (acts : List ImportAction) :
    ∀ (todo : List String) (r : LagByGroup) (c : ConsumerGroupsContent) {cfg : ImportConfig},
      importInterleaved ⟨.loop known todo, r, c⟩ acts = .ok cfg → cfg.pc = .done →
      todo.length < (ImportAction.taskContents c acts).length ∧
      cfg.lagByGroup = ((todo.zip (ImportAction.taskContents c acts)).foldl
        (fun r nc => importedStep ⟨known, nc.2.get?⟩ r nc.1) r).retain
          fun g _ => known.contains g := by
  induction acts with
  | nil => rintro todo r c cfg ⟨⟩ ⟨⟩
  | cons a acts ih =>
    intro todo r c cfg h hd
    cases a with
    | replace c' => exact ih todo r c' h hd
    | task =>
      cases todo with
      | nil =>
        obtain ⟨c', hc'⟩ := importInterleaved_done (r.retain fun g _ => known.contains g) acts c
        cases h.symm.trans hc'
        exact ⟨Nat.zero_lt_succ _, rfl⟩
      | cons name todo =>
        rw [importInterleaved, importTaskStep, importStep_eq] at h
        obtain ⟨hlen, hr⟩ := ih todo _ c h hd
        exact ⟨Nat.succ_lt_succ hlen, hr⟩

theorem importInterleaved_start_reads (r0 : LagByGroup) (acts : List ImportAction) :
    ∀ (S0 : ConsumerGroupsContent) {cfg : ImportConfig},
      importInterleaved ⟨.start, r0, S0⟩ acts = .ok cfg → cfg.pc = .done →
      ∃ S rest, ImportAction.taskContents S0 acts = S :: rest ∧
        S.keySet.keys.length < rest.length ∧
        cfg.lagByGroup = ((S.keySet.keys.zip rest).foldl
          (fun r nc => importedStep ⟨S.keySet, nc.2.get?⟩ r nc.1) r0).retain
            fun g _ => S.keySet.contains g := by
  induction acts with
  | nil => rintro S0 cfg ⟨⟩ ⟨⟩
  | cons a acts ih =>
    intro S0 cfg h hd
    cases a with
    | replace c => exact ih c h hd
    | task => exact ⟨S0, _, rfl, importInterleaved_loop_reads S0.keySet acts _ r0 S0 h hd⟩

theorem foldl_zip_importedStep (known : HashSet String) (G : String → Option GroupWithMembers) :
    ∀ (names : List String) (cs : List ConsumerGroupsContent) (r : LagByGroup),
      names.length ≤ cs.length → (∀ p ∈ names.zip cs, G p.1 = p.2.get? p.1) →
      (names.zip cs).foldl (fun r nc => importedStep ⟨known, nc.2.get?⟩ r nc.1) r =
        names.foldl (importedStep ⟨known, G⟩) r
  | [], _, _, _, _ => rfl
  | _ :: _, [], _, hl, _ => absurd hl (by simp)
  | n :: names, c :: cs, r, hl, hG => by
    have hn : importedStep ⟨known, c.get?⟩ r n = importedStep ⟨known, G⟩ r n := by
      simp only [importedStep, hG (n, c) (List.mem_cons_self _ _)]
    rw [List.zip_cons_cons, List.foldl_cons, List.foldl_cons, hn]
    exact foldl_zip_importedStep known G names cs _ (by simpa using hl)
      fun p hp => hG p (List.mem_cons_of_mem _ hp)

theorem getGroup_readsAt {S : ConsumerGroupsContent} {rest : List ConsumerGroupsContent}
    (hlen : S.keySet.keys.length ≤ rest.length) {p : String × ConsumerGroupsContent}
    (hp : p ∈ S.keySet.keys.zip rest) : (readsAt S rest).getGroup p.1 = p.2.get? p.1 := by
  have hnd : ((S.keySet.keys.zip rest).map Prod.fst).Nodup := by
    rw [List.map_fst_zip _ _ hlen]
    exact S.keySet.nodup
  have hl : (S.keySet.keys.zip rest).lookup p.1 = some p.2 :=
    HashMap.get?_eq_some_iff (m := ⟨_, hnd⟩).mpr hp
  simp only [readsAt, hl, Option.some_bind]

/-- The names come from the `get_groups` step, each group from its own `get_group` step. -/
theorem importInterleaved_reads_per_group (r0 : LagByGroup) (S0 : ConsumerGroupsContent)
    (acts : List ImportAction) (cfg : ImportConfig)
    (h : importInterleaved ⟨.start, r0, S0⟩ acts = .ok cfg) (hd : cfg.pc = .done) :
    ∃ S rest, ImportAction.taskContents S0 acts = S :: rest ∧ S.toList.length < rest.length ∧
      processConsumerGroups (readsAt S rest) r0 = .ok cfg.lagByGroup := by
  obtain ⟨S, rest, hc, hlen, hr⟩ := importInterleaved_start_reads r0 acts S0 h hd
  have hk : S.keySet.keys.length = S.toList.length := by simp [HashMap.keys, HashMap.keySet]
  refine ⟨S, rest, hc, hk ▸ hlen, ?_⟩
  rw [processConsumerGroups_eq, hr, readsAt, foldl_zip_importedStep _ _ _ _ _ hlen.le
    fun p hp => getGroup_readsAt hlen.le hp]
  rfl

/-- `get_groups` and `get_group a` read `groupsAB`, `get_group b` reads `groupsA`. -/
def replacedBeforeB : List ImportAction := [.task, .task, .replace groupsA, .task, .task]

theorem importInterleaved_reads_per_group_replaced :
    ∃ cfg, importInterleaved ⟨.start, registerAB, groupsAB⟩ replacedBeforeB = .ok cfg ∧
      cfg.pc = .done ∧ ∃ S rest, ImportAction.taskContents groupsAB replacedBeforeB = S :: rest ∧
        S.toList.length < rest.length ∧
        processConsumerGroups (readsAt S rest) registerAB = .ok cfg.lagByGroup := by
  obtain ⟨cfg, h, hd⟩ : ∃ cfg, importInterleaved ⟨.start, registerAB, groupsAB⟩ replacedBeforeB =
      .ok cfg ∧ cfg.pc = .done := ⟨_, rfl, rfl⟩
  exact ⟨cfg, h, hd, importInterleaved_reads_per_group _ _ _ _ h hd⟩

end ConsumerLag
