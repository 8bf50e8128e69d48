import ConsumerLag.RegisterRun
import ConsumerLag.ImportInterleaving
import ConsumerLag.Select

/-!
# The reconciler task of the lag register

The task that `LagRegister::new` spawns imports the consumer groups register, reads its version
token (`get_hash`), then loops on a `select!` between the next offsets record and a 1 s
interval. Its steps interleave with those of the other tasks: the consumer groups register is
replaced, records are sent on `kod_rx`, its sender is dropped. `T` is the type of the version
tokens and `hash` the token of a content. The interval's branch of the `select!` is never
disabled, so its `else` arm never runs; the one `panic!`, in an import, is never reached; out
of its imports the task's register is one that a run of writes (`runRegister`) produces. A
replacement between the first import and the first `get_hash` is never caught up with.
-/
namespace ConsumerLag

/-- The receiving end of `kod_rx`: the records not yet received, and whether it is closed. -/
structure OffsetsChannel where
  queue : List KonsumerOffsetsData
  closed : Bool

/-- `kod_rx.recv()` under `Some(kod)`: a closed, drained channel yields `None`, refused. -/
def OffsetsChannel.recvPoll (ch : OffsetsChannel) : BranchPoll :=
  match ch.queue with
  | _ :: _ => .matched
  | [] => if ch.closed then .disabled else .pending

/-- The body of the `Some(kod)` arm. -/
def processKonsumerOffsetsData (po : PartitionOffsetsRegister) :
    KonsumerOffsetsData → LagByGroup → LagByGroup
  | .offsetCommit oc, r => processOffsetCommit po oc r
  | .groupMetadata gm, r => processGroupMetadata gm r

/-- Where the task stands: first import, `select!`, tick's `get_hash`, tick's import, refresh. -/
inductive ReconcilerPc (T : Type)
  | initImport (imp : ImportPc)
  | select (curr : T)
  | tickHash (curr : T)
  | tickImport (latest : T) (imp : ImportPc)
  | tickRefresh (curr : T)
  | stopped
  deriving DecidableEq

structure Reconciler (T : Type) where
  pc : ReconcilerPc T
  lagByGroup : LagByGroup
  content : ConsumerGroupsContent
  channel : OffsetsChannel

/-- `LagRegister::new`: an empty register, an open channel, the register content `c`. -/
def Reconciler.init {T : Type} (c : ConsumerGroupsContent) : Reconciler T :=
  ⟨.initImport .start, HashMap.empty, c, ⟨[], false⟩⟩

/-- Whether the interval fired, the select's choice, and the offsets register and clock read. -/
structure ReconcilerInput where
  tickReady : Bool
  arm : ℕ
  po : PartitionOffsetsRegister
  clock : ℕ → Int

variable {T : Type} [DecidableEq T]

/-- The task's next step; a select with no ready arm waits, which leaves the state as it is. -/
def reconcilerStep (hash : ConsumerGroupsContent → T) (i : ReconcilerInput) (s : Reconciler T) :
    Except String (Reconciler T) :=
  match s.pc with
  | .initImport .done => .ok { s with pc := .select (hash s.content) }
  | .initImport imp => do
    let (imp, r) ← importTaskStep s.content imp s.lagByGroup
    pure { s with pc := .initImport imp, lagByGroup := r }
  | .select curr =>
    match selectChoice [s.channel.recvPoll, .ofReady i.tickReady] i.arm, s.channel.queue with
    | some (some 0), kod :: rest =>
      .ok { s with
        lagByGroup := processKonsumerOffsetsData i.po kod s.lagByGroup
        channel := { s.channel with queue := rest } }
    | some (some 1), _ => .ok { s with pc := .tickHash curr }
    | some none, _ => .ok { s with pc := .stopped }
    | _, _ => .ok s
  | .tickHash curr =>
    let latest := hash s.content
    if curr ≠ latest then .ok { s with pc := .tickImport latest .start }
    else .ok { s with pc := .tickRefresh curr }
  | .tickImport latest .done => .ok { s with pc := .tickRefresh latest }
  | .tickImport latest imp => do
    let (imp, r) ← importTaskStep s.content imp s.lagByGroup
    pure { s with pc := .tickImport latest imp, lagByGroup := r }
  | .tickRefresh curr =>
    .ok { s with
      pc := .select curr
      lagByGroup := updateStaleLags i.po i.clock s.lagByGroup }
  | .stopped => .ok s

/-- A replacement of the consumer groups register, a send, a drop of the sender, or a step. -/
inductive ReconcilerAction
  | replace (c : ConsumerGroupsContent)
  | send (kod : KonsumerOffsetsData)
  | close
  | step (i : ReconcilerInput)

def Reconciler.act (hash : ConsumerGroupsContent → T) (s : Reconciler T) :
    ReconcilerAction → Except String (Reconciler T)
  | .replace c => .ok { s with content := c }
  | .send kod =>
    .ok (if s.channel.closed then s
      else { s with channel := { s.channel with queue := s.channel.queue ++ [kod] } })
  | .close => .ok { s with channel := { s.channel with closed := true } }
  | .step i => reconcilerStep hash i s

def reconcilerRun (hash : ConsumerGroupsContent → T) :
    Reconciler T → List ReconcilerAction → Except String (Reconciler T)
  | s, [] => .ok s
  | s, a :: acts => do reconcilerRun hash (← s.act hash a) acts

/-- The states from `LagRegister::new`, with replacements only where `mayReplace` allows. -/
inductive ReconcilerReachable (hash : ConsumerGroupsContent → T)
    (mayReplace : ReconcilerPc T → Prop) : Reconciler T → Prop
  | init (c : ConsumerGroupsContent) : ReconcilerReachable hash mayReplace (Reconciler.init c)
  | act {s s' : Reconciler T} (a : ReconcilerAction) :
      ReconcilerReachable hash mayReplace s → (∀ c, a = .replace c → mayReplace s.pc) →
      s.act hash a = .ok s' → ReconcilerReachable hash mayReplace s'

/-- A schedule whose replacements are allowed everywhere runs through reachable states. -/
theorem reconcilerReachable_of_run {hash : ConsumerGroupsContent → T}
    {mayReplace : ReconcilerPc T → Prop} :
    ∀ (acts : List ReconcilerAction), (∀ a ∈ acts, ∀ c, a = .replace c → ∀ pc, mayReplace pc) →
      ∀ {s s' : Reconciler T}, ReconcilerReachable hash mayReplace s →
        reconcilerRun hash s acts = .ok s' → ReconcilerReachable hash mayReplace s'
  | [], _, _, _, hs, h => by cases h; exact hs
  | a :: acts, hl, s, s', hs, h => by
    rw [reconcilerRun] at h
    obtain ⟨s₁, ha, h⟩ := bind_eq_ok h
    exact reconcilerReachable_of_run acts (fun b hb => hl b (List.mem_cons_of_mem _ hb))
      (.act a hs (fun c hc => hl a (List.mem_cons_self _ _) c hc _) ha) h

/-- The task's step when nothing has been sent, with the interval fired or not. -/
def idleStep (ready : Bool) : ReconcilerAction :=
  .step ⟨ready, 0, ⟨fun _ => none, fun _ _ => none, fun _ _ _ => none⟩, fun _ => 0⟩

/-- One constructor per branch of `reconcilerStep`; the `else` arm is not among them. -/
inductive ReconcilerMove (hash : ConsumerGroupsContent → T) (i : ReconcilerInput)
    (s : Reconciler T) : Reconciler T → Prop
  | wait : ReconcilerMove hash i s s
  | initDone : s.pc = .initImport .done →
      ReconcilerMove hash i s { s with pc := .select (hash s.content) }
  | initImport {imp imp' : ImportPc} {r : LagByGroup} : s.pc = .initImport imp →
      importTaskStep s.content imp s.lagByGroup = .ok (imp', r) →
      ReconcilerMove hash i s { s with pc := .initImport imp', lagByGroup := r }
  | record {curr : T} {kod : KonsumerOffsetsData} {rest : List KonsumerOffsetsData} :
      s.pc = .select curr → s.channel.queue = kod :: rest →
      ReconcilerMove hash i s { s with
        pc := .select curr
        lagByGroup := processKonsumerOffsetsData i.po kod s.lagByGroup
        channel := ⟨rest, s.channel.closed⟩ }
  | tick {curr : T} : s.pc = .select curr → ReconcilerMove hash i s { s with pc := .tickHash curr }
  | hashChanged {curr : T} : s.pc = .tickHash curr → curr ≠ hash s.content →
      ReconcilerMove hash i s { s with pc := .tickImport (hash s.content) .start }
  | hashSame {curr : T} : s.pc = .tickHash curr → curr = hash s.content →
      ReconcilerMove hash i s { s with pc := .tickRefresh curr }
  | tickDone {latest : T} : s.pc = .tickImport latest .done →
      ReconcilerMove hash i s { s with pc := .tickRefresh latest }
  | tickImport {latest : T} {imp imp' : ImportPc} {r : LagByGroup} :
      s.pc = .tickImport latest imp → importTaskStep s.content imp s.lagByGroup = .ok (imp', r) →
      ReconcilerMove hash i s { s with pc := .tickImport latest imp', lagByGroup := r }
  | refresh {curr : T} : s.pc = .tickRefresh curr →
      ReconcilerMove hash i s { s with
        pc := .select curr
        lagByGroup := updateStaleLags i.po i.clock s.lagByGroup }

theorem reconcilerStep_move {hash : ConsumerGroupsContent → T} {i : ReconcilerInput}
    {s s' : Reconciler T} (h : reconcilerStep hash i s = .ok s') : ReconcilerMove hash i s s' := by
  obtain ⟨pc, r, c, ch⟩ := s
  cases pc with
  | initImport imp =>
    cases imp with
    | done => cases h; exact .initDone rfl
    | _ =>
      obtain ⟨⟨imp', r'⟩, hstep, h⟩ := bind_eq_ok h
      cases h; exact .initImport rfl hstep
  | select curr =>
    simp only [reconcilerStep] at h
    split at h
    · next hq => cases h; exact .record rfl hq
    · cases h; exact .tick rfl
    · next harm =>
      exact absurd harm (selectChoice_ne_else _
        (List.mem_cons_of_mem _ (List.mem_singleton_self (BranchPoll.ofReady i.tickReady))))
    · cases h; exact .wait
  | tickHash curr =>
    simp only [reconcilerStep] at h
    split at h <;> cases h
    · exact .hashChanged rfl ‹_›
    · exact .hashSame rfl (not_not.mp ‹_›)
  | tickImport latest imp =>
    cases imp with
    | done => cases h; exact .tickDone rfl
    | _ =>
      obtain ⟨⟨imp', r'⟩, hstep, h⟩ := bind_eq_ok h
      cases h; exact .tickImport rfl hstep
  | tickRefresh curr => cases h; exact .refresh rfl
  | stopped => cases h; exact .wait

/-- Only a task already out of the loop is out of the loop after a step. -/
theorem pc_eq_stopped_of_reconcilerStep {hash : ConsumerGroupsContent → T} {i : ReconcilerInput}
    {s s' : Reconciler T} (h : reconcilerStep hash i s = .ok s') (hs' : s'.pc = .stopped) :
    s.pc = .stopped := by
  cases reconcilerStep_move h <;> first | exact hs' | cases hs'

/-- No run of the system takes the task out of its loop. -/
theorem reconcilerReachable_not_stopped {hash : ConsumerGroupsContent → T}
    {mayReplace : ReconcilerPc T → Prop} {s : Reconciler T}
    (hs : ReconcilerReachable hash mayReplace s) : s.pc ≠ .stopped := by
  induction hs with
  | init c => exact fun h => by cases h
  | act a _ _ h ih =>
    intro hs'
    cases a with
    | replace c => cases h; exact ih hs'
    | send kod =>
      simp only [Reconciler.act] at h
      split at h <;> cases h <;> exact ih hs'
    | close => cases h; exact ih hs'
    | step i => exact ih (pc_eq_stopped_of_reconcilerStep h hs')

theorem reconcilerReachable_not_stopped_after_close :
    ∃ s : Reconciler ConsumerGroupsContent, ReconcilerReachable id (fun _ => True) s ∧
      s.channel.closed = true ∧ s.channel.queue = [] ∧ s.pc ≠ .stopped := by
  obtain ⟨s, hrun, hc, hq⟩ : ∃ s, reconcilerRun id (Reconciler.init groupsA)
      [.close, idleStep false, idleStep false, idleStep false, idleStep false, idleStep true] =
        .ok s ∧ s.channel.closed = true ∧ s.channel.queue = [] := ⟨_, rfl, rfl, rfl⟩
  have hs : ReconcilerReachable id (fun _ => True) s :=
    reconcilerReachable_of_run _ (fun _ _ _ _ _ => trivial) (.init _) hrun
  exact ⟨s, hs, hc, hq, reconcilerReachable_not_stopped hs⟩

/-- With `kod_rx` closed and drained, the `select!` takes no exit and the ticks go on. -/
theorem reconciler_ticks_after_close (hash : ConsumerGroupsContent → T) (r : LagByGroup)
    (c : ConsumerGroupsContent) (po : PartitionOffsetsRegister) (clock : ℕ → Int) :
    (∀ i s', reconcilerStep hash i ⟨.select (hash c), r, c, ⟨[], true⟩⟩ = .ok s' →
      s'.pc ≠ .stopped) ∧
    reconcilerRun hash ⟨.select (hash c), r, c, ⟨[], true⟩⟩
        [.step ⟨true, 0, po, clock⟩, .step ⟨false, 0, po, clock⟩, .step ⟨false, 0, po, clock⟩] =
      .ok ⟨.select (hash c), updateStaleLags po clock r, c, ⟨[], true⟩⟩ := by
  refine ⟨fun i s' h hs' => (nomatch pc_eq_stopped_of_reconcilerStep h hs'), ?_⟩
  have harms : selectChoice [(⟨[], true⟩ : OffsetsChannel).recvPoll, .ofReady true] 0 =
      some (some 1) := by
    decide
  simp [reconcilerRun, Reconciler.act, reconcilerStep, harms, bind, Except.bind]

theorem reconcilerStep_ok (hash : ConsumerGroupsContent → T) (i : ReconcilerInput)
    (s : Reconciler T) : ∃ s', reconcilerStep hash i s = .ok s' := by
  unfold reconcilerStep
  split
  case h_2 | h_6 =>
    rename_i imp _ _
    obtain ⟨x, hx⟩ := importTaskStep_ok s.content imp s.lagByGroup
    exact ⟨_, by rw [hx]; rfl⟩
  case h_3 | h_4 =>
    dsimp only
    split <;> exact ⟨_, rfl⟩
  all_goals exact ⟨_, rfl⟩

theorem Reconciler.act_ok (hash : ConsumerGroupsContent → T) (s : Reconciler T)
    (a : ReconcilerAction) : ∃ s', s.act hash a = .ok s' := by
  cases a with
  | step i => exact reconcilerStep_ok hash i s
  | _ => exact ⟨_, rfl⟩

/-- From every state every schedule runs to the end: the `panic!` is never reached. -/
theorem reconcilerRun_never_panics (hash : ConsumerGroupsContent → T) (s : Reconciler T)
    (acts : List ReconcilerAction) : ∃ s', reconcilerRun hash s acts = .ok s' := by
  induction acts generalizing s with
  | nil => exact ⟨s, rfl⟩
  | cons a acts ih =>
    obtain ⟨s₁, h₁⟩ := s.act_ok hash a
    obtain ⟨s₂, h₂⟩ := ih s₁
    exact ⟨s₂, by rw [reconcilerRun, h₁]; exact h₂⟩

/-- The stored token is the content's, out of the imports: the next tick skips the import. -/
def TokenCurrent (hash : ConsumerGroupsContent → T) : ReconcilerPc T → ConsumerGroupsContent → Prop
  | .select curr, c | .tickHash curr, c | .tickRefresh curr, c => curr = hash c
  | _, _ => False

def ReconcilerAction.isReplace : ReconcilerAction → Bool
  | .replace _ => true
  | _ => false

@[simp] theorem contains_processKonsumerOffsetsData (po : PartitionOffsetsRegister)
    (kod : KonsumerOffsetsData) (r : LagByGroup) (g : String) :
    (processKonsumerOffsetsData po kod r).contains g = r.contains g := by
  cases kod <;> simp [processKonsumerOffsetsData]

theorem tokenCurrent_reconcilerStep {hash : ConsumerGroupsContent → T} {i : ReconcilerInput}
    {s s' : Reconciler T} (hs : TokenCurrent hash s.pc s.content)
    (h : reconcilerStep hash i s = .ok s') :
    TokenCurrent hash s'.pc s'.content ∧ s'.content = s.content ∧
      ∀ g, s'.lagByGroup.contains g = s.lagByGroup.contains g := by
  cases reconcilerStep_move h with
  | wait => exact ⟨hs, rfl, fun _ => rfl⟩
  | initDone hpc | initImport hpc _ | tickDone hpc | tickImport hpc _ =>
    rw [hpc] at hs
    exact False.elim hs
  | record hpc _ =>
    rw [hpc] at hs
    exact ⟨hs, rfl, by simp⟩
  | tick hpc | hashSame hpc _ =>
    rw [hpc] at hs
    exact ⟨hs, rfl, fun _ => rfl⟩
  | hashChanged hpc hne =>
    rw [hpc] at hs
    exact absurd hs hne
  | refresh hpc =>
    rw [hpc] at hs
    exact ⟨hs, rfl, by simp [contains_updateStaleLags]⟩

theorem tokenCurrent_act {hash : ConsumerGroupsContent → T} {s s' : Reconciler T}
    {a : ReconcilerAction} (ha : a.isReplace = false) (hs : TokenCurrent hash s.pc s.content)
    (h : s.act hash a = .ok s') :
    TokenCurrent hash s'.pc s'.content ∧ s'.content = s.content ∧
      ∀ g, s'.lagByGroup.contains g = s.lagByGroup.contains g := by
  cases a with
  | replace c => cases ha
  | send kod =>
    simp only [Reconciler.act] at h
    split at h <;> cases h <;> exact ⟨hs, rfl, fun _ => rfl⟩
  | close =>
    cases h
    exact ⟨hs, rfl, fun _ => rfl⟩
  | step i => exact tokenCurrent_reconcilerStep hs h

theorem reconcilerRun_append (hash : ConsumerGroupsContent → T) (s : Reconciler T)
    (acts acts' : List ReconcilerAction) :
    reconcilerRun hash s (acts ++ acts') = reconcilerRun hash s acts >>= (reconcilerRun hash · acts') := by
  induction acts generalizing s with
  | nil => rfl
  | cons a acts ih =>
    show s.act hash a >>= (reconcilerRun hash · (acts ++ acts')) =
      s.act hash a >>= (reconcilerRun hash · acts) >>= (reconcilerRun hash · acts')
    cases s.act hash a with
    | error e => rfl
    | ok s₁ => exact ih s₁

/-- With the stored token the content's, no tick imports until the content is replaced. -/
theorem reconcilerRun_keeps_groups (hash : ConsumerGroupsContent → T) (acts : List ReconcilerAction)
    (hacts : ∀ a ∈ acts, a.isReplace = false) {s : Reconciler T}
    (hs : TokenCurrent hash s.pc s.content) :
    ∃ s', reconcilerRun hash s acts = .ok s' ∧ s'.content = s.content ∧
      ∀ g, s'.lagByGroup.contains g = s.lagByGroup.contains g := by
  induction acts generalizing s with
  | nil => exact ⟨s, rfl, rfl, fun _ => rfl⟩
  | cons a acts ih =>
    obtain ⟨s₁, h₁⟩ := s.act_ok hash a
    obtain ⟨hs₁, hc₁, hg₁⟩ := tokenCurrent_act (hacts a (List.mem_cons_self _ _)) hs h₁
    obtain ⟨s₂, h₂, hc₂, hg₂⟩ := ih (fun b hb => hacts b (List.mem_cons_of_mem _ hb)) hs₁
    exact ⟨s₂, by rw [reconcilerRun, h₁]; exact h₂, hc₂.trans hc₁,
      fun g => (hg₂ g).trans (hg₁ g)⟩

/-- The first import reads `{a}`, then the register is emptied before the first `get_hash`. -/
def replacedBeforeFirstHash : List ReconcilerAction :=
  [idleStep false, idleStep false, idleStep false, .replace HashMap.empty, idleStep false,
    idleStep true]

/-- A replacement before the first `get_hash` leaves group `a` in the register for good. -/
theorem reconciler_keeps_stale_group (acts : List ReconcilerAction)
    (hacts : ∀ a ∈ acts, a.isReplace = false) :
    ∃ s, reconcilerRun id (Reconciler.init groupsA) (replacedBeforeFirstHash ++ acts) = .ok s ∧
      s.lagByGroup.contains "a" = true ∧ s.content.contains "a" = false := by
  obtain ⟨s₀, h₀, hs₀, ha, hc⟩ : ∃ s₀, reconcilerRun id (Reconciler.init groupsA)
      replacedBeforeFirstHash = .ok s₀ ∧ TokenCurrent id s₀.pc s₀.content ∧
        s₀.lagByGroup.contains "a" = true ∧ s₀.content.contains "a" = false :=
    ⟨_, rfl, rfl, rfl, rfl⟩
  obtain ⟨s, h, hcs, hgs⟩ := reconcilerRun_keeps_groups id acts hacts hs₀
  exact ⟨s, by rw [reconcilerRun_append, h₀]; exact h, (hgs "a").trans ha, hcs ▸ hc⟩

/-- Four more turns of the interval, two of them firing. -/
def ticksAfterReplace : List ReconcilerAction :=
  [idleStep true, idleStep false, idleStep false, idleStep true]

theorem reconciler_keeps_stale_group_ticking :
    (∀ a ∈ ticksAfterReplace, a.isReplace = false) ∧
    ∃ s, reconcilerRun id (Reconciler.init groupsA) (replacedBeforeFirstHash ++ ticksAfterReplace) =
      .ok s ∧ s.lagByGroup.contains "a" = true ∧ s.content.contains "a" = false :=
  have h : ∀ a ∈ ticksAfterReplace, a.isReplace = false := by decide
  ⟨h, reconciler_keeps_stale_group _ h⟩

def ReconcilerPc.inImport {T : Type} : ReconcilerPc T → Bool
  | .initImport _ | .tickImport _ _ => true
  | _ => false

/-- The task's register is one a run of writes produces (in an import, so far). -/
def RunsRegister : ReconcilerPc T → ConsumerGroupsContent → LagByGroup → Prop
  | .initImport imp, c, r | .tickImport _ imp, c, r =>
    ∃ evs r0 held, runRegister evs = .ok r0 ∧ c ∈ held ∧ ImportReadFrom r0 held imp r
  | _, _, r => ∃ evs, runRegister evs = .ok r

/-- A finished import is the write `importGroups` of what it read. -/
theorem runsRegister_of_done {evs : List RegisterEvent} {r0 r : LagByGroup}
    {held : List ConsumerGroupsContent} (h0 : runRegister evs = .ok r0)
    (h : ImportReadFrom r0 held .done r) : ∃ evs, runRegister evs = .ok r :=
  let ⟨reads, hr, _⟩ := h
  ⟨_, runRegister_snoc_of_apply h0 (.importGroups reads) hr⟩

theorem apply_processKonsumerOffsetsData (po : PartitionOffsetsRegister)
    (kod : KonsumerOffsetsData) (r : LagByGroup) :
    ∃ e : RegisterEvent, e.apply r = .ok (processKonsumerOffsetsData po kod r) := by
  cases kod with
  | offsetCommit oc => exact ⟨.offsetCommit oc po, rfl⟩
  | groupMetadata gm => exact ⟨.groupMetadata gm, rfl⟩

theorem runsRegister_reconcilerStep {hash : ConsumerGroupsContent → T} {i : ReconcilerInput}
    {s s' : Reconciler T} (hs : RunsRegister s.pc s.content s.lagByGroup)
    (h : reconcilerStep hash i s = .ok s') : RunsRegister s'.pc s'.content s'.lagByGroup := by
  cases reconcilerStep_move h with
  | wait => exact hs
  | initDone hpc | tickDone hpc =>
    rw [hpc] at hs
    obtain ⟨evs, r0, held, h0, -, hr⟩ := hs
    exact runsRegister_of_done h0 hr
  | initImport hpc hstep | tickImport hpc hstep =>
    rw [hpc] at hs
    obtain ⟨evs, r0, held, h0, hc, hr⟩ := hs
    exact ⟨evs, r0, held, h0, hc, importReadFrom_step hc hr hstep⟩
  | record hpc _ =>
    rw [hpc] at hs
    obtain ⟨evs, h0⟩ := hs
    obtain ⟨e, he⟩ := apply_processKonsumerOffsetsData i.po _ s.lagByGroup
    exact ⟨_, runRegister_snoc_of_apply h0 e he⟩
  | tick hpc | hashSame hpc _ =>
    rw [hpc] at hs
    exact hs
  | hashChanged hpc _ =>
    rw [hpc] at hs
    obtain ⟨evs, h0⟩ := hs
    exact ⟨evs, _, [s.content], h0, List.mem_singleton_self _, rfl⟩
  | refresh hpc =>
    rw [hpc] at hs
    obtain ⟨evs, h0⟩ := hs
    exact ⟨_, runRegister_snoc_of_apply h0 (.updateStaleLags i.po i.clock) rfl⟩

theorem runsRegister_act {hash : ConsumerGroupsContent → T} {s s' : Reconciler T}
    {a : ReconcilerAction} (hs : RunsRegister s.pc s.content s.lagByGroup)
    (h : s.act hash a = .ok s') : RunsRegister s'.pc s'.content s'.lagByGroup := by
  cases a with
  | replace c =>
    cases h
    obtain ⟨pc, r, c0, ch⟩ := s
    cases pc with
    | initImport imp | tickImport _ imp =>
      obtain ⟨evs, r0, held, h0, -, hr⟩ := hs
      exact ⟨evs, r0, held ++ [c], h0, by simp,
        importReadFrom_mono (fun _ h => List.mem_append_left _ h) hr⟩
    | _ => exact hs
  | send kod =>
    simp only [Reconciler.act] at h
    split at h <;> cases h <;> exact hs
  | close => cases h; exact hs
  | step i => exact runsRegister_reconcilerStep hs h

theorem reconcilerReachable_runsRegister {hash : ConsumerGroupsContent → T}
    {mayReplace : ReconcilerPc T → Prop} {s : Reconciler T}
    (hs : ReconcilerReachable hash mayReplace s) : RunsRegister s.pc s.content s.lagByGroup := by
  induction hs with
  | init c => exact ⟨[], _, [c], rfl, List.mem_singleton_self c, rfl⟩
  | act a _ _ h ih => exact runsRegister_act ih h

/-- Out of its imports, the task's register is one that a run of writes produces. -/
theorem reconcilerReachable_runRegister {hash : ConsumerGroupsContent → T}
    {mayReplace : ReconcilerPc T → Prop} {s : Reconciler T}
    (hs : ReconcilerReachable hash mayReplace s) (hpc : s.pc.inImport = false) :
    ∃ evs, runRegister evs = .ok s.lagByGroup := by
  have h := reconcilerReachable_runsRegister hs
  obtain ⟨pc, r, c, ch⟩ := s
  cases pc <;> first | exact h | cases hpc

theorem reconcilerReachable_runRegister_replaced :
    ∃ s : Reconciler ConsumerGroupsContent, ReconcilerReachable id (fun _ => True) s ∧
      s.pc.inImport = false ∧ ∃ evs, runRegister evs = .ok s.lagByGroup := by
  obtain ⟨s, hrun, hpc⟩ : ∃ s, reconcilerRun id (Reconciler.init groupsA) replacedBeforeFirstHash =
      .ok s ∧ s.pc.inImport = false := ⟨_, rfl, rfl⟩
  have hs : ReconcilerReachable id (fun _ => True) s :=
    reconcilerReachable_of_run _ (fun _ _ _ _ _ => trivial) (.init _) hrun
  exact ⟨s, hs, hpc, reconcilerReachable_runRegister hs hpc⟩

end ConsumerLag
