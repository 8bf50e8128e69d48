import ConsumerLag.RegisterRun

/-!
# The metrics endpoint against the register's writers

`prometheus_metrics` renders three families, `consumer_partition_offset`,
`consumer_partition_lag_offset` and `consumer_partition_lag_milliseconds`, each in a loop that
holds its own read guard on `lag_by_group`; the guard of one family is dropped before the next
one is taken. A write of the register task (`RegisterEvent.apply`) takes the write lock, so it
runs only while the handler holds no guard. The `append_metric` functions are not in the
sources: a family is the list of arguments its loop passes them.
-/
namespace ConsumerLag

/-- The arguments of one `append_metric` call after the cluster id. -/
structure MetricArgs where
  group : String
  topic : String
  partition : ℕ
  owner : Option Member
  lag : Option Lag
  deriving DecidableEq, Repr

/-- The calls of one family's loop over the register `r`, in its iteration order. -/
def familyArgs (r : LagByGroup) : List MetricArgs :=
  r.toList.flatMap fun (g, gwl) =>
    gwl.lagByTopicPartition.toList.map fun (tp, lwo) =>
      ⟨g, tp.topic, tp.partition, lwo.owner, lwo.lag⟩

/-- The labels that tell the series of a family apart. -/
def MetricArgs.series (a : MetricArgs) : String × TopicPartition :=
  (a.group, ⟨a.topic, a.partition⟩)

theorem mem_familyArgs (r : LagByGroup) (a : MetricArgs) :
    a ∈ familyArgs r ↔ r.entryAt a.group ⟨a.topic, a.partition⟩ = some ⟨a.lag, a.owner⟩ := by
  obtain ⟨g, t, p, o, l⟩ := a
  simp only [familyArgs, List.mem_flatMap, List.mem_map, LagByGroup.entryAt, Option.bind_eq_some,
    HashMap.get?_eq_some_iff]
  constructor
  · rintro ⟨⟨g', gwl⟩, hg, ⟨tp, lwo⟩, htp, he⟩
    simp only [MetricArgs.mk.injEq] at he
    obtain ⟨rfl, rfl, rfl, rfl, rfl⟩ := he
    exact ⟨gwl, hg, htp⟩
  · rintro ⟨gwl, hg, htp⟩
    exact ⟨(g, gwl), hg, (⟨t, p⟩, ⟨l, o⟩), htp, rfl⟩

theorem familyArgs_series_nodup (r : LagByGroup) :
    ((familyArgs r).map MetricArgs.series).Nodup := by
  simp only [familyArgs, List.map_flatMap, List.map_map]
  refine List.nodup_flatMap.mpr ⟨fun e _ => List.Nodup.of_map Prod.snd ?_, ?_⟩
  · simpa [List.map_map, Function.comp_def, MetricArgs.series] using e.2.lagByTopicPartition.nodup
  · exact (List.pairwise_map.mp r.nodup).imp fun hne x hxa hxb => by
      simp only [List.mem_map] at hxa hxb
      obtain ⟨_, _, rfl⟩ := hxa
      obtain ⟨_, _, h⟩ := hxb
      exact hne (congrArg Prod.fst h).symm

/-- A family has exactly one line per entry of the register it is rendered from. -/
theorem familyArgs_one_line_per_entry (r : LagByGroup) :
    ((familyArgs r).map MetricArgs.series).Nodup ∧
      ∀ a, a ∈ familyArgs r ↔ r.entryAt a.group ⟨a.topic, a.partition⟩ = some ⟨a.lag, a.owner⟩ :=
  ⟨familyArgs_series_nodup r, mem_familyArgs r⟩

/-- The families rendered, and the open read guard with its calls and its iterator's position. -/
structure MetricsState where
  register : LagByGroup
  families : List (List MetricArgs)
  guard : Option (List MetricArgs × ℕ)

def MetricsState.init (r : LagByGroup) : MetricsState := ⟨r, [], none⟩

/-- A register write, or a handler step: take the next read guard, or advance its loop. -/
inductive MetricsAction
  | write (e : RegisterEvent)
  | acquire
  | next

def MetricsAction.isAcquire : MetricsAction → Bool
  | .acquire => true
  | _ => false

def MetricsAction.isWrite : MetricsAction → Bool
  | .write _ => true
  | _ => false

/-- One step; `none` when a writer would wait on a read guard, or after three families. -/
def MetricsState.act (s : MetricsState) : MetricsAction → Option MetricsState
  | .write e =>
    match s.guard, e.apply s.register with
    | none, .ok r => some { s with register := r }
    | _, _ => none
  | .acquire =>
    match s.guard with
    | none => if s.families.length < 3 then some { s with guard := some ([], 0) } else none
    | some _ => none
  | .next =>
    match s.guard with
    | some (calls, n) =>
      match (familyArgs s.register)[n]? with
      | some a => some { s with guard := some (calls ++ [a], n + 1) }
      | none => some { s with families := s.families ++ [calls], guard := none }
    | none => none

/-- The handler and the writers after the steps `acts` from the register `r0`. -/
def metricsRun (r0 : LagByGroup) (acts : List MetricsAction) : Option MetricsState :=
  acts.foldlM MetricsState.act (.init r0)

theorem metricsRun_append_singleton (r0 : LagByGroup) (acts : List MetricsAction)
    (a : MetricsAction) : metricsRun r0 (acts ++ [a]) = metricsRun r0 acts >>= (·.act a) := by
  simp only [metricsRun, List.foldlM_append, List.foldlM_cons, List.foldlM_nil, bind_pure]

/-- A write with no guard held, a guard taken, or the loop's next call or its end. -/
theorem MetricsState.act_cases {s s' : MetricsState} {a : MetricsAction} (h : s.act a = some s') :
    (∃ e r, a = .write e ∧ s.guard = none ∧ e.apply s.register = .ok r ∧
      s' = { s with register := r }) ∨
    (a = .acquire ∧ s.guard = none ∧ s.families.length < 3 ∧
      s' = { s with guard := some ([], 0) }) ∨
    (∃ calls n, a = .next ∧ s.guard = some (calls, n) ∧
      ((∃ b, (familyArgs s.register)[n]? = some b ∧
          s' = { s with guard := some (calls ++ [b], n + 1) }) ∨
        ((familyArgs s.register)[n]? = none ∧
          s' = { s with families := s.families ++ [calls], guard := none }))) := by
  cases a with
  | write e =>
    simp only [MetricsState.act] at h
    split at h
    · next hg hr => cases h; exact .inl ⟨e, _, rfl, hg, hr, rfl⟩
    · cases h
  | acquire =>
    simp only [MetricsState.act] at h
    split at h
    · next hg =>
      split at h
      · next hl => cases h; exact .inr (.inl ⟨rfl, hg, hl, rfl⟩)
      · cases h
    · cases h
  | next =>
    simp only [MetricsState.act] at h
    split at h
    · next calls n hg =>
      refine .inr (.inr ⟨calls, n, rfl, hg, ?_⟩)
      split at h <;> cases h
      · next b hb => exact .inl ⟨b, hb, rfl⟩
      · next hb => exact .inr ⟨hb, rfl⟩
    · cases h

/-- The handler's own steps leave the register as it is. -/
theorem register_act_of_not_write {s s' : MetricsState} {a : MetricsAction}
    (ha : a.isWrite = false) (h : s.act a = some s') : s'.register = s.register := by
  rcases MetricsState.act_cases h with ⟨e, r, rfl, -⟩ | ⟨-, -, -, rfl⟩ |
      ⟨_, _, -, -, ⟨_, -, rfl⟩ | ⟨-, rfl⟩⟩
  · cases ha
  all_goals rfl

theorem register_metricsRun_append {r0 : LagByGroup} {ws : List MetricsAction}
    {s₀ : MetricsState} (h₀ : metricsRun r0 ws = some s₀) :
    ∀ (hs : List MetricsAction), (∀ a ∈ hs, a.isWrite = false) → ∀ {s : MetricsState},
      metricsRun r0 (ws ++ hs) = some s → s.register = s₀.register := by
  intro hs
  induction hs using List.reverseRecOn with
  | nil => intro _ s h; rw [List.append_nil, h₀] at h; cases h; rfl
  | append_singleton hs a ih =>
    intro hw s h
    rw [← List.append_assoc, metricsRun_append_singleton] at h
    obtain ⟨s₁, h₁, h⟩ := Option.bind_eq_some.mp h
    rw [register_act_of_not_write (hw a (by simp)) h]
    exact ih (fun b hb => hw b (by simp [hb])) h₁

/-- The `i`-th read guard of the run `acts` was taken on the register `r`. -/
def AcquiredOn (r0 : LagByGroup) (acts : List MetricsAction) (i : ℕ) (r : LagByGroup) : Prop :=
  ∃ pre post s, acts = pre ++ .acquire :: post ∧ (pre.filter MetricsAction.isAcquire).length = i ∧
    metricsRun r0 pre = some s ∧ s.register = r

theorem AcquiredOn.snoc {r0 r : LagByGroup} {acts : List MetricsAction} {i : ℕ}
    (h : AcquiredOn r0 acts i r) (a : MetricsAction) : AcquiredOn r0 (acts ++ [a]) i r := by
  obtain ⟨pre, post, s, rfl, hi, hs, hr⟩ := h
  exact ⟨pre, post ++ [a], s, by simp, hi, hs, hr⟩

/-- Each family and the open guard are on the register as it stood at their `acquire`. -/
structure MetricsInv (r0 : LagByGroup) (acts : List MetricsAction) (s : MetricsState) :
    Prop where
  families : ∀ i f, s.families[i]? = some f → ∃ r, AcquiredOn r0 acts i r ∧ f = familyArgs r
  guard : ∀ calls n, s.guard = some (calls, n) →
    AcquiredOn r0 acts s.families.length s.register ∧ calls = (familyArgs s.register).take n
  acquires : (acts.filter MetricsAction.isAcquire).length =
    s.families.length + if s.guard.isSome then 1 else 0

theorem metricsInv_act {r0 : LagByGroup} {acts : List MetricsAction} {s s' : MetricsState}
    {a : MetricsAction} (hrun : metricsRun r0 acts = some s) (hi : MetricsInv r0 acts s)
    (h : s.act a = some s') : MetricsInv r0 (acts ++ [a]) s' := by
  have hfam : ∀ i f, s.families[i]? = some f →
      ∃ r, AcquiredOn r0 (acts ++ [a]) i r ∧ f = familyArgs r := fun i f hf =>
    (hi.families i f hf).imp fun _ h => ⟨h.1.snoc a, h.2⟩
  rcases MetricsState.act_cases h with ⟨e, r, rfl, hg, -, rfl⟩ | ⟨rfl, hg, -, rfl⟩ |
      ⟨calls, n, rfl, hg, hnext⟩
  · exact ⟨hfam, by simp [hg], by simpa [MetricsAction.isAcquire, hg] using hi.acquires⟩
  · have hn : (acts.filter MetricsAction.isAcquire).length = s.families.length := by
      simpa [hg] using hi.acquires
    refine ⟨hfam, ?_, by simpa [MetricsAction.isAcquire] using hn⟩
    rintro _ _ ⟨⟩
    exact ⟨⟨acts, [], s, rfl, hn, hrun, rfl⟩, rfl⟩
  · obtain ⟨hacq, hcalls⟩ := hi.guard calls n hg
    have hcount : ((acts ++ [MetricsAction.next]).filter MetricsAction.isAcquire).length =
        s.families.length + 1 := by
      simpa [MetricsAction.isAcquire, hg] using hi.acquires
    rcases hnext with ⟨b, hb, rfl⟩ | ⟨hb, rfl⟩
    · refine ⟨hfam, ?_, by simpa using hcount⟩
      rintro _ _ ⟨⟩
      exact ⟨hacq.snoc _, by rw [List.take_succ, hb, hcalls]; rfl⟩
    · have hall : calls = familyArgs s.register := by
        rw [hcalls, List.take_of_length_le (List.getElem?_eq_none_iff.mp hb)]
      refine ⟨fun i f hf => ?_, by simp, by simpa using hcount⟩
      by_cases hlt : i < s.families.length
      · rw [List.getElem?_append_left hlt] at hf
        exact hfam i f hf
      · rw [List.getElem?_append_right (by omega)] at hf
        obtain ⟨hi', rfl⟩ : i - s.families.length = 0 ∧ calls = f := by
          simpa [List.getElem?_cons] using hf
        obtain rfl : i = s.families.length := by omega
        exact ⟨_, hacq.snoc _, hall⟩

theorem metricsRun_inv (r0 : LagByGroup) (acts : List MetricsAction) {s : MetricsState}
    (h : metricsRun r0 acts = some s) : MetricsInv r0 acts s := by
  induction acts using List.reverseRecOn generalizing s with
  | nil =>
    cases h
    exact ⟨fun _ _ h => by simp [MetricsState.init] at h, fun _ _ h => (by cases h), rfl⟩
  | append_singleton acts a ih =>
    rw [metricsRun_append_singleton] at h
    obtain ⟨s₀, h₀, h⟩ := Option.bind_eq_some.mp h
    exact metricsInv_act h₀ (ih h₀) h

/-- Each family is rendered whole from the register as it stood at its own `acquire`. -/
theorem metricsRun_family_from_its_guard {r0 : LagByGroup} {acts : List MetricsAction}
    {s : MetricsState} (h : metricsRun r0 acts = some s) {i : ℕ} {f : List MetricArgs}
    (hf : s.families[i]? = some f) :
    ∃ pre post s₁, acts = pre ++ .acquire :: post ∧
      (pre.filter MetricsAction.isAcquire).length = i ∧ metricsRun r0 pre = some s₁ ∧
      f = familyArgs s₁.register := by
  obtain ⟨r, ⟨pre, post, s₁, hacts, hi, hs, rfl⟩, rfl⟩ := (metricsRun_inv r0 acts h).families i f hf
  exact ⟨pre, post, s₁, hacts, hi, hs, rfl⟩

/-- With every write before the handler starts, the three families show one register. -/
theorem metricsRun_one_snapshot_of_writes_first {r0 : LagByGroup} {ws hs : List MetricsAction}
    (hws : ∀ a ∈ ws, a.isWrite = true) (hhs : ∀ a ∈ hs, a.isWrite = false)
    {s₀ s : MetricsState} (h₀ : metricsRun r0 ws = some s₀)
    (h : metricsRun r0 (ws ++ hs) = some s) : ∀ f ∈ s.families, f = familyArgs s₀.register := by
  intro f hf
  obtain ⟨i, hi⟩ := List.getElem?_of_mem hf
  obtain ⟨r, ⟨pre, post, s₁, hacts, -, h₁, rfl⟩, rfl⟩ := (metricsRun_inv r0 _ h).families i f hi
  obtain ⟨hs', rfl, hhs'⟩ : ∃ hs', pre = ws ++ hs' ∧ hs' ++ .acquire :: post = hs := by
    rcases List.append_eq_append_iff.mp hacts.symm with ⟨a', rfl, ha'⟩ | ⟨c', rfl, hc'⟩
    · cases a' with
      | nil => exact ⟨[], by simp, by simpa using ha'⟩
      | cons b a' =>
        obtain ⟨rfl, -⟩ := List.cons.inj ha'
        exact absurd (hws .acquire (by simp)) (by simp [MetricsAction.isWrite])
    · exact ⟨c', rfl, hc'.symm⟩
  rw [register_metricsRun_append h₀ hs' (fun a ha => hhs a (hhs' ▸ List.mem_append_left _ ha)) h₁]

/-- One group `g` whose one entry `(t, 0)` was committed at offset 10. -/
def oneCommitRegister : LagByGroup :=
  HashMap.fromList [("g", ⟨⟨"g", "Stable", "range", "consumer"⟩,
    HashMap.fromList [(⟨"t", 0⟩, ⟨some ⟨10, 0, 0, 0, 0⟩, none⟩)]⟩)]

/-- The commit of offset 20 for `(g, t, 0)`, with no offsets tracked for it. -/
def commitTwenty : RegisterEvent :=
  .offsetCommit ⟨"g", "t", 0, 20, 5⟩ ⟨fun _ => none, fun _ _ => none, fun _ _ _ => none⟩

/-- A commit lands between the first family and the second read guard. -/
def commitBetweenFamilies : List MetricsAction :=
  [.acquire, .next, .next, .write commitTwenty, .acquire, .next, .next, .acquire, .next, .next]

theorem metricsRun_family_from_its_guard_second :
    ∃ s f, metricsRun oneCommitRegister commitBetweenFamilies = some s ∧ s.families[1]? = some f ∧
      ∃ pre post s₁, commitBetweenFamilies = pre ++ .acquire :: post ∧
        (pre.filter MetricsAction.isAcquire).length = 1 ∧
        metricsRun oneCommitRegister pre = some s₁ ∧ f = familyArgs s₁.register := by
  obtain ⟨s, h, hf⟩ : ∃ s, metricsRun oneCommitRegister commitBetweenFamilies = some s ∧
      s.families[1]? = some [⟨"g", "t", 0, none, some ⟨20, 5, 5, 0, 0⟩⟩] := ⟨_, rfl, by decide⟩
  exact ⟨s, _, h, hf, metricsRun_family_from_its_guard h hf⟩

/-- One response whose first family shows offset 10 and whose others show offset 20. -/
theorem metrics_families_disagree :
    ∃ s, metricsRun oneCommitRegister commitBetweenFamilies = some s ∧ s.guard = none ∧
      s.families = [[⟨"g", "t", 0, none, some ⟨10, 0, 0, 0, 0⟩⟩],
        [⟨"g", "t", 0, none, some ⟨20, 5, 5, 0, 0⟩⟩], [⟨"g", "t", 0, none, some ⟨20, 5, 5, 0, 0⟩⟩]] :=
  ⟨_, rfl, by decide, by decide⟩

end ConsumerLag
