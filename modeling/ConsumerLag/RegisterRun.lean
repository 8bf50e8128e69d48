import ConsumerLag.RegisterHandlers
import ConsumerLag.RegisterImport
import ConsumerLag.RegisterRefresh

/-!
# Runs of the lag register

The register task writes `lag_by_group` in four ways, in whatever order its `select!` loop
meets them: an import (`process_consumer_groups`, at start and on a tick), the two event
handlers, and a tick's `update_stale_lags`. A run is the list of these writes, each with what
the other parties answered while it ran; `LagRegister::new` starts it from the empty map.
-/
namespace ConsumerLag

/-- One write of the register task, with the answers it got from the other parties. -/
inductive RegisterEvent
  | offsetCommit (oc : OffsetCommit) (po : PartitionOffsetsRegister)
  | groupMetadata (gm : GroupMetadata)
  | importGroups (reads : ConsumerGroupsReads)
  | updateStaleLags (po : PartitionOffsetsRegister) (clock : ℕ → Int)

namespace RegisterEvent

def apply : RegisterEvent → LagByGroup → Except String LagByGroup
  | offsetCommit oc po, r => .ok (processOffsetCommit po oc r)
  | groupMetadata gm, r => .ok (processGroupMetadata gm r)
  | importGroups reads, r => processConsumerGroups reads r
  | updateStaleLags po clock, r => .ok (ConsumerLag.updateStaleLags po clock r)

/-- The clock a refresh reads never goes backwards. -/
def ClockMonotone : RegisterEvent → Prop
  | updateStaleLags _ clock => Monotone clock
  | _ => True

theorem apply_ok (e : RegisterEvent) (r : LagByGroup) : ∃ r', e.apply r = .ok r' := by
  cases e with
  | importGroups reads => exact ⟨_, processConsumerGroups_eq reads r⟩
  | _ => exact ⟨_, rfl⟩

end RegisterEvent

/-- The register after the writes `evs`; an `error` is a panic, which ends the task. -/
def runRegister (evs : List RegisterEvent) : Except String LagByGroup :=
  evs.foldlM (fun r e => e.apply r) HashMap.empty

theorem runRegister_append_singleton (evs : List RegisterEvent) (e : RegisterEvent) :
    runRegister (evs ++ [e]) = runRegister evs >>= e.apply := by
  simp only [runRegister, List.foldlM_append, List.foldlM_cons, List.foldlM_nil, bind_pure]

theorem runRegister_snoc_of_apply {evs : List RegisterEvent} {r r' : LagByGroup}
    (h : runRegister evs = .ok r) (e : RegisterEvent) (he : e.apply r = .ok r') :
    runRegister (evs ++ [e]) = .ok r' := by
  rw [runRegister_append_singleton, h]
  exact he

/-- What every write keeps holds after every run, and no run panics. -/
theorem runRegister_induction (P : List RegisterEvent → LagByGroup → Prop)
    (nil : P [] HashMap.empty)
    (step : ∀ evs e r r', runRegister evs = .ok r → P evs r → e.apply r = .ok r' →
      P (evs ++ [e]) r')
    (evs : List RegisterEvent) : ∃ r, runRegister evs = .ok r ∧ P evs r := by
  induction evs using List.reverseRecOn with
  | nil => exact ⟨_, rfl, nil⟩
  | append_singleton evs e ih =>
    obtain ⟨r, hr, hp⟩ := ih
    obtain ⟨r', he⟩ := e.apply_ok r
    exact ⟨r', runRegister_snoc_of_apply hr e he, step evs e r r' hr hp he⟩

/-- A lag's `timestamp` is its commit's, or was stamped more than `LAG_STALE_AFTER` after it. -/
def Lag.StampedAfterCommit (l : Lag) : Prop :=
  l.offsetTimestamp ≤ l.timestamp ∧
    (l.timestamp = l.offsetTimestamp ∨ l.timestamp > l.offsetTimestamp + lagStaleAfter)

theorem RefreshedLag.stampedAfterCommit {clock : ℕ → Int} (hc : Monotone clock) {l l' : Lag}
    (h : RefreshedLag clock l l') (hl : l.StampedAfterCommit) : l'.StampedAfterCommit := by
  rcases h with rfl | ⟨n, ol, tl, hs, rfl⟩
  · exact hl
  · have hn : clock n ≤ clock (n + 1) := hc (Nat.le_succ n)
    simp only [Lag.isStale, decide_eq_true_eq] at hs
    simp only [Lag.StampedAfterCommit, lagStaleAfter, Duration.seconds] at hs ⊢
    omega

theorem RegisterEvent.stampedAfterCommit_apply {e : RegisterEvent} (hc : e.ClockMonotone)
    {r r' : LagByGroup} (h : e.apply r = .ok r')
    (hr : ∀ g tp l, r.lagAt g tp = some l → l.StampedAfterCommit) :
    ∀ g tp l, r'.lagAt g tp = some l → l.StampedAfterCommit := by
  intro g tp l hl
  cases e with
  | offsetCommit oc po =>
    cases h
    rw [lagAt_processOffsetCommit] at hl
    split_ifs at hl
    · cases hl
      exact ⟨le_rfl, .inl rfl⟩
    · exact hr g tp l hl
  | groupMetadata gm =>
    cases h
    exact hr g tp l (lagAt_processGroupMetadata hl)
  | importGroups reads => exact hr g tp l (lagAt_processConsumerGroups h hl)
  | updateStaleLags po clock =>
    cases h
    obtain ⟨l0, hl0, hrl⟩ := lagAt_of_lagAt_updateStaleLags hl
    exact hrl.stampedAfterCommit hc (hr g tp l0 hl0)

/-- With a monotone clock, a lag is stamped at its commit or more than 5 s after it. -/
theorem runRegister_lag_timestamps (evs : List RegisterEvent)
    (hclock : ∀ e ∈ evs, e.ClockMonotone) :
    ∃ r, runRegister evs = .ok r ∧ ∀ g tp l, r.lagAt g tp = some l →
      l.offsetTimestamp ≤ l.timestamp ∧
        (l.timestamp = l.offsetTimestamp ∨ l.timestamp > l.offsetTimestamp + Duration.seconds 5) := by
  obtain ⟨r, hr, hp⟩ := runRegister_induction
    (fun evs r => (∀ e ∈ evs, e.ClockMonotone) → ∀ g tp l, r.lagAt g tp = some l →
      l.StampedAfterCommit)
    (fun _ g tp l h => by simp [LagByGroup.lagAt, LagByGroup.entryAt] at h)
    (fun evs e r r' _ hp he hc => RegisterEvent.stampedAfterCommit_apply
      (hc e (List.mem_append_right _ (List.mem_singleton_self e))) he
      (hp fun e' h' => hc e' (List.mem_append_left _ h'))) evs
  exact ⟨r, hr, hp hclock⟩

/-- Group `g` imported, `(t, 0)` committed at 0 s, then a refresh at 10 s restamps it. -/
def commitThenRefresh : List RegisterEvent :=
  [.importGroups ⟨HashMap.fromList [("g", ())],
      fun _ => some ⟨⟨"g", "Stable", "range", "consumer"⟩, HashMap.empty⟩⟩,
    .offsetCommit ⟨"g", "t", 0, 10, 0⟩ ⟨fun _ => none, fun _ _ => none, fun _ _ _ => none⟩,
    .updateStaleLags ⟨fun _ => some ⟨20, Duration.seconds 10⟩, fun _ _ => some 10,
      fun _ _ _ => some 0⟩ (fun _ => Duration.seconds 10)]

theorem runRegister_lag_timestamps_commit_then_refresh :
    (∀ e ∈ commitThenRefresh, e.ClockMonotone) ∧
    (∃ r, runRegister commitThenRefresh = .ok r ∧ ∀ g tp l, r.lagAt g tp = some l →
      l.offsetTimestamp ≤ l.timestamp ∧
        (l.timestamp = l.offsetTimestamp ∨ l.timestamp > l.offsetTimestamp + Duration.seconds 5)) ∧
    ∃ r, runRegister commitThenRefresh = .ok r ∧
      r.lagAt "g" ⟨"t", 0⟩ = some ⟨10, 0, Duration.seconds 10, 10, 0⟩ :=
  have hc : ∀ e ∈ commitThenRefresh, e.ClockMonotone := by
    simp only [commitThenRefresh, List.mem_cons, List.mem_singleton, forall_eq_or_imp, forall_eq,
      RegisterEvent.ClockMonotone, true_and, List.not_mem_nil, false_imp_iff, implies_true,
      and_true]
    exact fun _ _ _ => le_rfl
  ⟨hc, runRegister_lag_timestamps _ hc, _, rfl, by decide⟩

/-- `LagRegister::is_ready`: `lag_by_group` is not empty. -/
def LagByGroup.isReady (r : LagByGroup) : Bool := !r.isEmpty

/-- Following the spec's readiness: some group holds at least one partition entry. -/
def LagByGroup.hasPartitionEntry (r : LagByGroup) : Bool :=
  r.toList.any fun e => !e.2.lagByTopicPartition.isEmpty

/-- One group `g` whose one member has no partition assigned or owned. -/
def idleGroupContent : ConsumerGroupsContent :=
  HashMap.fromList [("g", ⟨⟨"g", "Stable", "range", "consumer"⟩,
    HashMap.fromList [("m", ⟨⟨"m", "client-m", "host-m"⟩, HashMap.empty⟩)]⟩)]

/-- `is_ready` holds with a group and no partition entry at all. -/
theorem isReady_without_partition_entry :
    (∀ r : LagByGroup, r.isReady = true ↔ ∃ g, r.contains g) ∧
    ∃ r, runRegister [.importGroups (.ofContent idleGroupContent)] = .ok r ∧
      r.isReady = true ∧ r.hasPartitionEntry = false := by
  refine ⟨fun r => ?_, _, rfl, by decide, by decide⟩
  simp [LagByGroup.isReady, HashMap.isEmpty_eq_false_iff]

end ConsumerLag
