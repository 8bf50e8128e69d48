import ConsumerLag.Reconciler
import ConsumerLag.RegisterWrites

/-!
# Delivery of the offsets records

The records sent on `kod_rx` reach the register through the `Some(kod)` arm of the task's
`select!`, one per step, in the order of the channel. Over every schedule of the system, with
the consumer groups register replaced anywhere, the register is the result of a run of writes
whose records are those sent before the sender was dropped, each once and in the order sent,
less those still queued. The partitions of the offsets topic keep only the records of one group
in order; what a run of records leaves for a group depends on that group's records alone, and a
record handled again before another of its group changes nothing but the estimates.
-/
namespace ConsumerLag

namespace RegisterEvent

/-- The offsets record a write of the `Some(kod)` arm handles. -/
def record : RegisterEvent → Option KonsumerOffsetsData
  | offsetCommit oc _ => some (.offsetCommit oc)
  | groupMetadata gm => some (.groupMetadata gm)
  | importGroups _ | updateStaleLags _ _ => none

/-- The write of the `Some(kod)` arm for `kod`, with the offsets register it queries. -/
def ofRecord (po : PartitionOffsetsRegister) : KonsumerOffsetsData → RegisterEvent
  | .offsetCommit oc => offsetCommit oc po
  | .groupMetadata gm => groupMetadata gm

theorem apply_ofRecord (po : PartitionOffsetsRegister) (kod : KonsumerOffsetsData)
    (r : LagByGroup) : (ofRecord po kod).apply r = .ok (processKonsumerOffsetsData po kod r) := by
  cases kod <;> rfl

theorem record_ofRecord (po : PartitionOffsetsRegister) (kod : KonsumerOffsetsData) :
    (ofRecord po kod).record = some kod := by
  cases kod <;> rfl

end RegisterEvent

namespace ReconcilerAction

def isClose : ReconcilerAction → Bool
  | close => true
  | _ => false

def sentRecord : ReconcilerAction → Option KonsumerOffsetsData
  | send kod => some kod
  | _ => none

/-- The records a schedule sends on `kod_rx`: its sends before the sender is dropped. -/
def sent (acts : List ReconcilerAction) : List KonsumerOffsetsData :=
  (acts.takeWhile fun a => !a.isClose).filterMap sentRecord

theorem sent_cons {b : ReconcilerAction} (hb : b.isClose = false) (acts : List ReconcilerAction) :
    sent (b :: acts) = b.sentRecord.toList ++ sent acts := by
  cases b <;> first | rfl | cases hb

theorem sent_append_singleton (acts : List ReconcilerAction) (a : ReconcilerAction) :
    sent (acts ++ [a]) = sent acts ++ if acts.any isClose then [] else a.sentRecord.toList := by
  induction acts with
  | nil => cases a <;> rfl
  | cons b acts ih =>
    cases hb : b.isClose
    · rw [List.cons_append, sent_cons hb, sent_cons hb, ih, List.any_cons, hb, Bool.false_or,
        List.append_assoc]
    · cases b <;> first | rfl | cases hb

end ReconcilerAction

variable {T : Type} [DecidableEq T]

theorem reconcilerRun_append_singleton (hash : ConsumerGroupsContent → T) (s : Reconciler T)
    (acts : List ReconcilerAction) (a : ReconcilerAction) :
    reconcilerRun hash s (acts ++ [a]) = reconcilerRun hash s acts >>= (·.act hash a) := by
  induction acts generalizing s with
  | nil =>
    show s.act hash a >>= (reconcilerRun hash · []) = s.act hash a
    cases s.act hash a <;> rfl
  | cons b acts ih =>
    show s.act hash b >>= (reconcilerRun hash · (acts ++ [a])) =
      s.act hash b >>= (reconcilerRun hash · acts) >>= (·.act hash a)
    cases s.act hash b with
    | error e => rfl
    | ok s₁ => exact ih s₁

/-- The task's register comes from a run of writes with records `recs` (in an import, so far). -/
def RunsRecords : ReconcilerPc T → ConsumerGroupsContent → LagByGroup →
    List KonsumerOffsetsData → Prop
  | .initImport imp, c, r, recs | .tickImport _ imp, c, r, recs =>
    ∃ evs r0 held, runRegister evs = .ok r0 ∧ evs.filterMap RegisterEvent.record = recs ∧
      c ∈ held ∧ ImportReadFrom r0 held imp r
  | _, _, r, recs => ∃ evs, runRegister evs = .ok r ∧ evs.filterMap RegisterEvent.record = recs

/-- A task step moves records from the front of the channel to the register, one at a time. -/
theorem runsRecords_reconcilerStep {hash : ConsumerGroupsContent → T} {i : ReconcilerInput}
    {s s' : Reconciler T} {recs : List KonsumerOffsetsData}
    (hs : RunsRecords s.pc s.content s.lagByGroup recs) (h : reconcilerStep hash i s = .ok s') :
    ∃ recs', RunsRecords s'.pc s'.content s'.lagByGroup recs' ∧
      recs' ++ s'.channel.queue = recs ++ s.channel.queue ∧
      s'.channel.closed = s.channel.closed := by
  cases reconcilerStep_move h with
  | wait => exact ⟨recs, hs, rfl, rfl⟩
  | initDone hpc | tickDone hpc =>
    rw [hpc] at hs
    obtain ⟨evs, r0, held, h0, hrec, -, reads, hr, -⟩ := hs
    exact ⟨recs, ⟨_, runRegister_snoc_of_apply h0 (.importGroups reads) hr,
      by simp [hrec, RegisterEvent.record]⟩, rfl, rfl⟩
  | initImport hpc hstep | tickImport hpc hstep =>
    rw [hpc] at hs
    obtain ⟨evs, r0, held, h0, hrec, hc, hr⟩ := hs
    exact ⟨recs, ⟨evs, r0, held, h0, hrec, hc, importReadFrom_step hc hr hstep⟩, rfl, rfl⟩
  | @record _ kod rest hpc hq =>
    rw [hpc] at hs
    obtain ⟨evs, h0, hrec⟩ := hs
    refine ⟨recs ++ [kod], ⟨_, runRegister_snoc_of_apply h0 (.ofRecord i.po kod)
      (RegisterEvent.apply_ofRecord _ _ _), ?_⟩, by simp [hq], rfl⟩
    simp [hrec, RegisterEvent.record_ofRecord]
  | tick hpc | hashSame hpc _ =>
    rw [hpc] at hs
    exact ⟨recs, hs, rfl, rfl⟩
  | hashChanged hpc _ =>
    rw [hpc] at hs
    obtain ⟨evs, h0, hrec⟩ := hs
    exact ⟨recs, ⟨evs, _, [s.content], h0, hrec, List.mem_singleton_self _, rfl⟩, rfl, rfl⟩
  | refresh hpc =>
    rw [hpc] at hs
    obtain ⟨evs, h0, hrec⟩ := hs
    exact ⟨recs, ⟨_, runRegister_snoc_of_apply h0 (.updateStaleLags i.po i.clock) rfl,
      by simp [hrec, RegisterEvent.record]⟩, rfl, rfl⟩

/-- A send queues its record while the sender is held; no other action queues one. -/
theorem runsRecords_act {hash : ConsumerGroupsContent → T} {s s' : Reconciler T}
    {a : ReconcilerAction} {recs : List KonsumerOffsetsData}
    (hs : RunsRecords s.pc s.content s.lagByGroup recs) (h : s.act hash a = .ok s') :
    ∃ recs', RunsRecords s'.pc s'.content s'.lagByGroup recs' ∧
      recs' ++ s'.channel.queue =
        recs ++ s.channel.queue ++ (if s.channel.closed then [] else a.sentRecord.toList) ∧
      s'.channel.closed = (s.channel.closed || a.isClose) := by
  cases a with
  | replace c =>
    cases h
    refine ⟨recs, ?_, by simp [ReconcilerAction.sentRecord], by simp [ReconcilerAction.isClose]⟩
    obtain ⟨pc, r, c0, ch⟩ := s
    cases pc with
    | initImport imp | tickImport _ imp =>
      obtain ⟨evs, r0, held, h0, hrec, -, hr⟩ := hs
      exact ⟨evs, r0, held ++ [c], h0, hrec, by simp,
        importReadFrom_mono (fun _ h => List.mem_append_left _ h) hr⟩
    | _ => exact hs
  | send kod =>
    simp only [Reconciler.act] at h
    cases hc : s.channel.closed <;> rw [hc] at h <;> cases h <;>
      exact ⟨recs, hs, by simp [hc, ReconcilerAction.sentRecord], by simp [hc, ReconcilerAction.isClose]⟩
  | close =>
    cases h
    exact ⟨recs, hs, by simp [ReconcilerAction.sentRecord], by simp [ReconcilerAction.isClose]⟩
  | step i =>
    obtain ⟨recs', hs', hq, hc⟩ := runsRecords_reconcilerStep hs h
    exact ⟨recs', hs', by simp [hq, ReconcilerAction.sentRecord], by simp [hc, ReconcilerAction.isClose]⟩

theorem reconcilerRun_runsRecords (hash : ConsumerGroupsContent → T) (c : ConsumerGroupsContent)
    (acts : List ReconcilerAction) {s : Reconciler T}
    (h : reconcilerRun hash (Reconciler.init c) acts = .ok s) :
    ∃ recs, RunsRecords s.pc s.content s.lagByGroup recs ∧
      recs ++ s.channel.queue = ReconcilerAction.sent acts ∧
      s.channel.closed = acts.any ReconcilerAction.isClose := by
  induction acts using List.reverseRecOn generalizing s with
  | nil =>
    cases h
    exact ⟨[], ⟨[], _, [c], rfl, rfl, List.mem_singleton_self c, rfl⟩, rfl, rfl⟩
  | append_singleton acts a ih =>
    rw [reconcilerRun_append_singleton] at h
    obtain ⟨s₁, h₁, h⟩ := bind_eq_ok h
    obtain ⟨recs₁, hs₁, hq₁, hc₁⟩ := ih h₁
    obtain ⟨recs, hs, hq, hc⟩ := runsRecords_act hs₁ h
    refine ⟨recs, hs, ?_, by rw [hc, hc₁, List.any_append]; simp⟩
    rw [hq, hq₁, ReconcilerAction.sent_append_singleton, hc₁]

/-- Every record sent on `kod_rx` before its sender is dropped is applied once, in order. -/
theorem reconcilerRun_delivers_records_in_order (hash : ConsumerGroupsContent → T)
    (c : ConsumerGroupsContent) (acts : List ReconcilerAction) {s : Reconciler T}
    (h : reconcilerRun hash (Reconciler.init c) acts = .ok s) (hpc : s.pc.inImport = false) :
    ∃ evs, runRegister evs = .ok s.lagByGroup ∧
      evs.filterMap RegisterEvent.record ++ s.channel.queue = ReconcilerAction.sent acts := by
  obtain ⟨recs, hs, hq, -⟩ := reconcilerRun_runsRecords hash c acts h
  obtain ⟨pc, r, c', ch⟩ := s
  cases pc with
  | initImport | tickImport => cases hpc
  | _ =>
    obtain ⟨evs, h0, hrec⟩ := hs
    exact ⟨evs, h0, hrec ▸ hq⟩

/-- A commit sent while the first import runs, and received at the first `select!`. -/
def sendDuringImport : List ReconcilerAction :=
  [.send (.offsetCommit ⟨"a", "t", 0, 20, 5⟩), idleStep false, idleStep false, idleStep false,
    idleStep false, idleStep false]

theorem reconcilerRun_delivers_records_in_order_during_import :
    ∃ s : Reconciler ConsumerGroupsContent,
      reconcilerRun id (Reconciler.init groupsA) sendDuringImport = .ok s ∧
        s.pc.inImport = false ∧ ∃ evs, runRegister evs = .ok s.lagByGroup ∧
          evs.filterMap RegisterEvent.record ++ s.channel.queue =
            ReconcilerAction.sent sendDuringImport := by
  obtain ⟨s, h, hpc⟩ : ∃ s, reconcilerRun id (Reconciler.init groupsA) sendDuringImport = .ok s ∧
      s.pc.inImport = false := ⟨_, rfl, rfl⟩
  exact ⟨s, h, hpc, reconcilerRun_delivers_records_in_order id groupsA _ h hpc⟩

/-- The group an offsets record is about. -/
def KonsumerOffsetsData.group : KonsumerOffsetsData → String
  | .offsetCommit oc => oc.group
  | .groupMetadata gm => gm.group

/-- The register after the `Some(kod)` arm has handled `recs`, each with its offsets register. -/
def processRecords (r : LagByGroup)
    (recs : List (PartitionOffsetsRegister × KonsumerOffsetsData)) : LagByGroup :=
  recs.foldl (fun r x => processKonsumerOffsetsData x.1 x.2 r) r

/-- Two registers that agree on group `g`: its `Group` and its entries. -/
def LagByGroup.SameAt (g : String) (r r' : LagByGroup) : Prop :=
  (r'.get? g).map GroupWithLag.group = (r.get? g).map GroupWithLag.group ∧
    ∀ tp, r'.entryAt g tp = r.entryAt g tp

theorem LagByGroup.SameAt.symm {g : String} {r r' : LagByGroup} (h : r.SameAt g r') :
    r'.SameAt g r :=
  ⟨h.1.symm, fun tp => (h.2 tp).symm⟩

theorem LagByGroup.SameAt.trans {g : String} {r₁ r₂ r₃ : LagByGroup} (h₁ : r₁.SameAt g r₂)
    (h₂ : r₂.SameAt g r₃) : r₁.SameAt g r₃ :=
  ⟨h₂.1.trans h₁.1, fun tp => (h₂.2 tp).trans (h₁.2 tp)⟩

/-- A record of another group leaves group `g` as it is. -/
theorem sameAt_processKonsumerOffsetsData_of_ne (po : PartitionOffsetsRegister)
    (kod : KonsumerOffsetsData) (r : LagByGroup) {g : String} (h : kod.group ≠ g) :
    r.SameAt g (processKonsumerOffsetsData po kod r) := by
  cases kod with
  | offsetCommit oc =>
    refine ⟨map_group_processOffsetCommit po oc r g, fun tp => ?_⟩
    rw [processKonsumerOffsetsData, entryAt_processOffsetCommit, if_neg fun hc => h hc.1.symm]
  | groupMetadata gm =>
    refine ⟨map_group_processGroupMetadata gm r g, fun tp => ?_⟩
    rw [processKonsumerOffsetsData, entryAt_processGroupMetadata, if_neg fun hc => h hc.1.symm]

/-- What a record leaves for group `g` depends on nothing but what the register held for `g`. -/
theorem sameAt_processKonsumerOffsetsData (po : PartitionOffsetsRegister)
    (kod : KonsumerOffsetsData) {g : String} {r r' : LagByGroup} (h : r.SameAt g r') :
    (processKonsumerOffsetsData po kod r).SameAt g (processKonsumerOffsetsData po kod r') := by
  cases kod with
  | offsetCommit oc =>
    refine ⟨by rw [processKonsumerOffsetsData, processKonsumerOffsetsData,
      map_group_processOffsetCommit, map_group_processOffsetCommit, h.1], fun tp => ?_⟩
    rw [processKonsumerOffsetsData, processKonsumerOffsetsData, entryAt_processOffsetCommit,
      entryAt_processOffsetCommit, h.2 tp, contains_eq_of_map_group h.1]
  | groupMetadata gm =>
    refine ⟨by rw [processKonsumerOffsetsData, processKonsumerOffsetsData,
      map_group_processGroupMetadata, map_group_processGroupMetadata, h.1], fun tp => ?_⟩
    rw [processKonsumerOffsetsData, processKonsumerOffsetsData, entryAt_processGroupMetadata,
      entryAt_processGroupMetadata, h.2 tp]

theorem sameAt_processRecords {g : String} {r r' : LagByGroup} (h : r.SameAt g r')
    (recs : List (PartitionOffsetsRegister × KonsumerOffsetsData)) :
    (processRecords r recs).SameAt g (processRecords r' recs) := by
  induction recs generalizing r r' with
  | nil => exact h
  | cons x recs ih => exact ih (sameAt_processKonsumerOffsetsData x.1 x.2 h)

/-- What a run of records leaves for group `g` is what the run of the records about `g` leaves. -/
theorem sameAt_processRecords_filter (r : LagByGroup)
    (recs : List (PartitionOffsetsRegister × KonsumerOffsetsData)) (g : String) :
    (processRecords r recs).SameAt g (processRecords r (recs.filter fun x => x.2.group = g)) := by
  induction recs generalizing r with
  | nil => exact ⟨rfl, fun _ => rfl⟩
  | cons x recs ih =>
    by_cases hx : x.2.group = g
    · simpa [processRecords, List.filter_cons, hx] using ih (processKonsumerOffsetsData x.1 x.2 r)
    · have h := (ih (processKonsumerOffsetsData x.1 x.2 r)).trans (sameAt_processRecords
        (sameAt_processKonsumerOffsetsData_of_ne x.1 x.2 r hx).symm _)
      simpa [processRecords, List.filter_cons, hx] using h

/-- Only the order of the records within each group matters to the register. -/
theorem processRecords_per_group_order (r : LagByGroup)
    (recs recs' : List (PartitionOffsetsRegister × KonsumerOffsetsData))
    (h : ∀ g, recs.filter (fun x => x.2.group = g) = recs'.filter (fun x => x.2.group = g)) :
    (∀ g, ((processRecords r recs').get? g).map GroupWithLag.group =
      ((processRecords r recs).get? g).map GroupWithLag.group) ∧
    ∀ g tp, (processRecords r recs').entryAt g tp = (processRecords r recs).entryAt g tp := by
  have hg : ∀ g, (processRecords r recs).SameAt g (processRecords r recs') := fun g =>
    (sameAt_processRecords_filter r recs g).trans
      (h g ▸ (sameAt_processRecords_filter r recs' g).symm)
  exact ⟨fun g => (hg g).1, fun g tp => (hg g).2 tp⟩

/-- A commit for group `a`, then one for group `b`. -/
def commitsAB : List (PartitionOffsetsRegister × KonsumerOffsetsData) :=
  [(⟨fun _ => none, fun _ _ => none, fun _ _ _ => none⟩, .offsetCommit ⟨"a", "t", 0, 20, 5⟩),
    (⟨fun _ => none, fun _ _ => none, fun _ _ _ => none⟩, .offsetCommit ⟨"b", "t", 0, 30, 6⟩)]

theorem processRecords_per_group_order_swapped :
    (∀ g, commitsAB.filter (fun x => x.2.group = g) =
      commitsAB.reverse.filter (fun x => x.2.group = g)) ∧
    (∀ g, ((processRecords registerAB commitsAB.reverse).get? g).map GroupWithLag.group =
      ((processRecords registerAB commitsAB).get? g).map GroupWithLag.group) ∧
    ∀ g tp, (processRecords registerAB commitsAB.reverse).entryAt g tp =
      (processRecords registerAB commitsAB).entryAt g tp :=
  have h : ∀ g, commitsAB.filter (fun x => x.2.group = g) =
      commitsAB.reverse.filter (fun x => x.2.group = g) := fun g => by
    by_cases ha : "a" = g
    · subst ha
      simp [commitsAB, KonsumerOffsetsData.group]
    · by_cases hb : "b" = g <;> simp_all [commitsAB, KonsumerOffsetsData.group]
  ⟨h, processRecords_per_group_order registerAB commitsAB commitsAB.reverse h⟩

/-- A record handled twice in a row leaves its group as handling it once does. -/
theorem sameAt_processKonsumerOffsetsData_twice (po : PartitionOffsetsRegister)
    (kod : KonsumerOffsetsData) (r : LagByGroup) (g : String) :
    (processKonsumerOffsetsData po kod r).SameAt g
      (processKonsumerOffsetsData po kod (processKonsumerOffsetsData po kod r)) := by
  cases kod with
  | offsetCommit oc =>
    refine ⟨map_group_processOffsetCommit po oc _ g, fun tp => ?_⟩
    simp only [processKonsumerOffsetsData]
    rw [entryAt_processOffsetCommit po oc (processOffsetCommit po oc r),
      contains_eq_of_map_group (map_group_processOffsetCommit po oc r g)]
    split_ifs with h
    · rw [entryAt_processOffsetCommit, if_pos h]
      rfl
    · rfl
  | groupMetadata gm =>
    refine ⟨map_group_processGroupMetadata gm _ g, fun tp => ?_⟩
    simp only [processKonsumerOffsetsData]
    rw [entryAt_processGroupMetadata gm (processGroupMetadata gm r)]
    split_ifs with h
    · rw [entryAt_processGroupMetadata, if_pos h]
      cases gm.lastClaimant tp with
      | none => rfl
      | some c => cases r.entryAt g tp <;> rfl
    · rfl

theorem processRecords_cons (r : LagByGroup) (x : PartitionOffsetsRegister × KonsumerOffsetsData)
    (recs : List (PartitionOffsetsRegister × KonsumerOffsetsData)) :
    processRecords r (x :: recs) = processRecords (processKonsumerOffsetsData x.1 x.2 r) recs :=
  rfl

theorem processRecords_append (r : LagByGroup)
    (recs recs' : List (PartitionOffsetsRegister × KonsumerOffsetsData)) :
    processRecords r (recs ++ recs') = processRecords (processRecords r recs) recs' :=
  List.foldl_append _ _ _ _

theorem sameCommits_processKonsumerOffsetsData (po : PartitionOffsetsRegister)
    (kod : KonsumerOffsetsData) {r s : LagByGroup} (h : r.SameCommits s) :
    (processKonsumerOffsetsData po kod r).SameCommits (processKonsumerOffsetsData po kod s) := by
  cases kod with
  | offsetCommit oc => exact sameCommits_processOffsetCommit po oc h
  | groupMetadata gm => exact sameCommits_processGroupMetadata gm h

theorem sameCommits_processRecords {r s : LagByGroup} (h : r.SameCommits s)
    (recs : List (PartitionOffsetsRegister × KonsumerOffsetsData)) :
    (processRecords r recs).SameCommits (processRecords s recs) := by
  induction recs generalizing r s with
  | nil => exact h
  | cons x recs ih => exact ih (sameCommits_processKonsumerOffsetsData x.1 x.2 h)

theorem sameAt_processRecords_of_ne (r : LagByGroup) {g : String}
    (recs : List (PartitionOffsetsRegister × KonsumerOffsetsData))
    (h : ∀ y ∈ recs, y.2.group ≠ g) : r.SameAt g (processRecords r recs) := by
  induction recs generalizing r with
  | nil => exact ⟨rfl, fun _ => rfl⟩
  | cons x recs ih =>
    exact (sameAt_processKonsumerOffsetsData_of_ne x.1 x.2 r (h x (List.mem_cons_self _ _))).trans
      (ih _ fun y hy => h y (List.mem_cons_of_mem _ hy))

/-- Handled again with other estimates, a record changes nothing but the estimates. -/
theorem sameCommits_processKonsumerOffsetsData_again (po po' : PartitionOffsetsRegister)
    (kod : KonsumerOffsetsData) (r : LagByGroup) :
    (processKonsumerOffsetsData po kod r).SameCommits
      (processKonsumerOffsetsData po' kod (processKonsumerOffsetsData po kod r)) := by
  cases kod with
  | offsetCommit oc =>
    refine ⟨map_group_processOffsetCommit po' oc _, fun g tp => ?_⟩
    simp only [processKonsumerOffsetsData]
    rw [entryAt_processOffsetCommit po' oc (processOffsetCommit po oc r),
      contains_eq_of_map_group (map_group_processOffsetCommit po oc r g)]
    split_ifs with h
    · rw [entryAt_processOffsetCommit, if_pos h]
      rfl
    · rfl
  | groupMetadata gm =>
    have h := sameAt_processKonsumerOffsetsData_twice po (.groupMetadata gm) r
    exact ⟨fun g => (h g).1, fun g tp => congrArg (Option.map LagWithOwner.commitView) ((h g).2 tp)⟩

/-- A record handled again before another of its group changes nothing but estimates. -/
theorem processRecords_redelivered (r : LagByGroup)
    (recs mid recs' : List (PartitionOffsetsRegister × KonsumerOffsetsData))
    (po po' : PartitionOffsetsRegister) (kod : KonsumerOffsetsData)
    (hmid : ∀ y ∈ mid, y.2.group ≠ kod.group) :
    (processRecords r (recs ++ (po, kod) :: mid ++ recs')).SameCommits
      (processRecords r (recs ++ (po, kod) :: mid ++ (po', kod) :: recs')) := by
  simp only [List.append_assoc, List.cons_append, processRecords_append, processRecords_cons]
  refine sameCommits_processRecords ?_ recs'
  have hM := sameAt_processRecords_of_ne (processKonsumerOffsetsData po kod (processRecords r recs))
    mid hmid
  have hA := sameCommits_processKonsumerOffsetsData_again po po' kod (processRecords r recs)
  have hB := sameAt_processKonsumerOffsetsData po' kod hM
  refine ⟨fun g => ?_, fun g tp => ?_⟩ <;> by_cases hg : kod.group = g
  · subst hg
    rw [hB.1, hA.1, hM.1]
  · exact (sameAt_processKonsumerOffsetsData_of_ne po' kod _ hg).1
  · subst hg
    rw [hB.2 tp, hA.2, hM.2 tp]
  · rw [(sameAt_processKonsumerOffsetsData_of_ne po' kod _ hg).2 tp]

/-- A commit for group `a`. -/
def commitA : PartitionOffsetsRegister × KonsumerOffsetsData :=
  (⟨fun _ => none, fun _ _ => none, fun _ _ _ => none⟩, .offsetCommit ⟨"a", "t", 0, 20, 5⟩)

/-- A commit for group `b`. -/
def commitB : PartitionOffsetsRegister × KonsumerOffsetsData :=
  (⟨fun _ => none, fun _ _ => none, fun _ _ _ => none⟩, .offsetCommit ⟨"b", "t", 0, 30, 6⟩)

/-- Estimates the second delivery of `commitA` gets. -/
def estimatesA : PartitionOffsetsRegister :=
  ⟨fun _ => some ⟨30, 8⟩, fun _ _ => some 10, fun _ _ _ => some 3⟩

theorem processRecords_redelivered_with_estimates :
    (∀ y ∈ [commitB], y.2.group ≠ commitA.2.group) ∧
    (processRecords registerAB ([] ++ (commitA.1, commitA.2) :: [commitB] ++ [])).SameCommits
      (processRecords registerAB
        ([] ++ (commitA.1, commitA.2) :: [commitB] ++ (estimatesA, commitA.2) :: [])) :=
  have h : ∀ y ∈ [commitB], y.2.group ≠ commitA.2.group := by
    simp [commitA, commitB, KonsumerOffsetsData.group]
  ⟨h, processRecords_redelivered registerAB [] [commitB] [] commitA.1 estimatesA commitA.2 h⟩

end ConsumerLag
