import ConsumerLag.Types

/-!
# Refreshing stale lags

`update_stale_lags` walks every group and every entry under one write lock. `Utc::now()` is
read by `is_stale` for each lag it reaches and once more for the `timestamp` of a refreshed
lag; `clock n` is the `n`-th reading of the pass. The inner loop `break`s at the first lag
that is not stale and at the first failed `get_latest_tracked_offset`.
-/
namespace ConsumerLag

/-- A stale `curr_lag` after its refresh, stamped with the reading `now`. -/
def refreshLag (po : PartitionOffsetsRegister) (tp : TopicPartition) (l : Lag)
    (latest : PartitionOffset) (now : Int) : Lag :=
  { l with
    offsetLag := (po.estimateOffsetLag tp l.offset).getD 0
    timeLag := (po.estimateTimeLag tp l.offset latest.at).getD 0
    timestamp := now }

/-- The inner loop from the `n`-th clock reading; it returns the next reading and the entries. -/
def updateStaleLagsOf (po : PartitionOffsetsRegister) (clock : ℕ → Int) :
    ℕ → List (TopicPartition × LagWithOwner) → ℕ × List (TopicPartition × LagWithOwner)
  | n, [] => (n, [])
  | n, (tp, lwo) :: rest =>
    match lwo.lag with
    | none =>
      let r := updateStaleLagsOf po clock n rest
      (r.1, (tp, lwo) :: r.2)
    | some l =>
      if !l.isStale (clock n) then (n + 1, (tp, lwo) :: rest)
      else
        match po.getLatestTrackedOffset tp with
        | none => (n + 1, (tp, lwo) :: rest)
        | some latest =>
          let r := updateStaleLagsOf po clock (n + 2) rest
          (r.1, (tp, { lwo with lag := some (refreshLag po tp l latest (clock (n + 1))) }) :: r.2)

theorem updateStaleLagsOf_keys (po : PartitionOffsetsRegister) (clock : ℕ → Int) (n : ℕ)
    (l : List (TopicPartition × LagWithOwner)) :
    (updateStaleLagsOf po clock n l).2.map Prod.fst = l.map Prod.fst := by
  induction l generalizing n with
  | nil => rfl
  | cons e rest ih =>
    obtain ⟨tp, ⟨_ | l, o⟩⟩ := e
    · simp [updateStaleLagsOf, ih]
    · simp only [updateStaleLagsOf]
      split
      · rfl
      · split <;> simp [ih]

/-- The outer loop over the groups, from the `n`-th clock reading on. -/
def updateStaleLagsGroups (po : PartitionOffsetsRegister) (clock : ℕ → Int) :
    ℕ → List (String × GroupWithLag) → ℕ × List (String × GroupWithLag)
  | n, [] => (n, [])
  | n, (g, gwl) :: rest =>
    let inner := updateStaleLagsOf po clock n gwl.lagByTopicPartition.toList
    let outer := updateStaleLagsGroups po clock inner.1 rest
    (outer.1, (g, { gwl with
      lagByTopicPartition := ⟨inner.2, by
        rw [updateStaleLagsOf_keys]
        exact gwl.lagByTopicPartition.nodup⟩ }) :: outer.2)

theorem updateStaleLagsGroups_keys (po : PartitionOffsetsRegister) (clock : ℕ → Int) (n : ℕ)
    (l : List (String × GroupWithLag)) :
    (updateStaleLagsGroups po clock n l).2.map Prod.fst = l.map Prod.fst := by
  induction l generalizing n with
  | nil => rfl
  | cons e rest ih => simp [updateStaleLagsGroups, ih]

/-- `update_stale_lags`, whose pass reads the clock `clock 0`, `clock 1`, ... -/
def updateStaleLags (po : PartitionOffsetsRegister) (clock : ℕ → Int) (r : LagByGroup) :
    LagByGroup :=
  ⟨(updateStaleLagsGroups po clock 0 r.toList).2, by
    rw [updateStaleLagsGroups_keys]
    exact r.nodup⟩

/-- The pass adds or removes no group. -/
@[simp] theorem contains_updateStaleLags (po : PartitionOffsetsRegister) (clock : ℕ → Int)
    (r : LagByGroup) (g : String) : (updateStaleLags po clock r).contains g = r.contains g := by
  have hk : (updateStaleLags po clock r).keys = r.keys := updateStaleLagsGroups_keys po clock 0 _
  rw [Bool.eq_iff_iff, HashMap.contains_iff_mem_keys, HashMap.contains_iff_mem_keys, hk]

/-- A lag left as it is, or refreshed after one stale reading: new estimates and `timestamp`. -/
def RefreshedLag (clock : ℕ → Int) (l l' : Lag) : Prop :=
  l' = l ∨ ∃ n offsetLag timeLag, l.isStale (clock n) ∧
    l' = { l with offsetLag := offsetLag, timeLag := timeLag, timestamp := clock (n + 1) }

/-- An entry the pass may leave behind: same owner, and a lag left or refreshed. -/
def RefreshedEntry (clock : ℕ → Int) (lwo lwo' : LagWithOwner) : Prop :=
  lwo'.owner = lwo.owner ∧ Option.Rel (RefreshedLag clock) lwo.lag lwo'.lag

theorem refreshedEntry_refl (clock : ℕ → Int) (lwo : LagWithOwner) : RefreshedEntry clock lwo lwo := by
  refine ⟨rfl, ?_⟩
  cases lwo.lag
  · exact .none
  · exact .some (.inl rfl)

theorem updateStaleLagsOf_refreshed (po : PartitionOffsetsRegister) (clock : ℕ → Int) (n : ℕ)
    (l : List (TopicPartition × LagWithOwner)) :
    List.Forall₂ (fun e e' => e'.1 = e.1 ∧ RefreshedEntry clock e.2 e'.2) l
      (updateStaleLagsOf po clock n l).2 := by
  have same : ∀ l : List (TopicPartition × LagWithOwner),
      List.Forall₂ (fun e e' => e'.1 = e.1 ∧ RefreshedEntry clock e.2 e'.2) l l := fun l =>
    List.forall₂_same.mpr fun e _ => ⟨rfl, refreshedEntry_refl clock e.2⟩
  induction l generalizing n with
  | nil => exact .nil
  | cons e rest ih =>
    obtain ⟨tp, ⟨_ | l, o⟩⟩ := e
    · exact .cons ⟨rfl, refreshedEntry_refl clock _⟩ (ih n)
    · simp only [updateStaleLagsOf]
      split
      · exact same _
      · next hs =>
        split
        · exact same _
        · exact .cons ⟨rfl, rfl, .some (.inr ⟨n, _, _, by simpa using hs, rfl⟩)⟩ (ih (n + 2))

/-- A group the pass may leave behind: same `Group`, entries in step with the old ones. -/
def RefreshedGroup (clock : ℕ → Int) (gwl gwl' : GroupWithLag) : Prop :=
  gwl'.group = gwl.group ∧ List.Forall₂ (fun e e' => e'.1 = e.1 ∧ RefreshedEntry clock e.2 e'.2)
    gwl.lagByTopicPartition.toList gwl'.lagByTopicPartition.toList

theorem updateStaleLagsGroups_refreshed (po : PartitionOffsetsRegister) (clock : ℕ → Int)
    (n : ℕ) (l : List (String × GroupWithLag)) :
    List.Forall₂ (fun e e' => e'.1 = e.1 ∧ RefreshedGroup clock e.2 e'.2) l
      (updateStaleLagsGroups po clock n l).2 := by
  induction l generalizing n with
  | nil => exact .nil
  | cons e rest ih => exact .cons ⟨rfl, rfl, updateStaleLagsOf_refreshed po clock n _⟩ (ih _)

private theorem rel_bind {α β γ δ : Type} {R : α → β → Prop} {S : γ → δ → Prop}
    {a : Option α} {b : Option β} {f : α → Option γ} {g : β → Option δ}
    (h : Option.Rel R a b) (hf : ∀ x y, R x y → Option.Rel S (f x) (g y)) :
    Option.Rel S (a.bind f) (b.bind g) := by
  cases h with
  | none => exact .none
  | some hr => exact hf _ _ hr

private theorem rel_mono {α β : Type} {R S : α → β → Prop} {a : Option α} {b : Option β}
    (h : Option.Rel R a b) (hRS : ∀ x y, R x y → S x y) : Option.Rel S a b := by
  cases h with
  | none => exact .none
  | some hr => exact .some (hRS _ _ hr)

/-- Every entry keeps its owner and has its lag left or refreshed. -/
theorem entryAt_updateStaleLags (po : PartitionOffsetsRegister) (clock : ℕ → Int)
    (r : LagByGroup) (g : String) (tp : TopicPartition) :
    Option.Rel (RefreshedEntry clock) (r.entryAt g tp) ((updateStaleLags po clock r).entryAt g tp) :=
  rel_bind (HashMap.rel_lookup_of_forall₂ (updateStaleLagsGroups_refreshed po clock 0 r.toList) g)
    fun _ _ h => HashMap.rel_lookup_of_forall₂ h.2 tp

theorem lagAt_updateStaleLags (po : PartitionOffsetsRegister) (clock : ℕ → Int)
    (r : LagByGroup) (g : String) (tp : TopicPartition) :
    Option.Rel (RefreshedLag clock) (r.lagAt g tp) ((updateStaleLags po clock r).lagAt g tp) :=
  rel_bind (entryAt_updateStaleLags po clock r g tp) fun _ _ h => h.2

/-- Every lag after the pass was there before it, left or refreshed. -/
theorem lagAt_of_lagAt_updateStaleLags {po : PartitionOffsetsRegister} {clock : ℕ → Int}
    {r : LagByGroup} {g : String} {tp : TopicPartition} {l' : Lag}
    (h : (updateStaleLags po clock r).lagAt g tp = some l') :
    ∃ l, r.lagAt g tp = some l ∧ RefreshedLag clock l l' := by
  have hr := lagAt_updateStaleLags po clock r g tp
  rw [h] at hr
  generalize r.lagAt g tp = o at hr
  cases hr with
  | some hl => exact ⟨_, rfl, hl⟩

/-- A refreshed lag keeps offset and commit time; only estimates and `timestamp` change. -/
theorem RefreshedLag.frame {clock : ℕ → Int} {l l' : Lag} (h : RefreshedLag clock l l') :
    l'.offset = l.offset ∧ l'.offsetTimestamp = l.offsetTimestamp ∧
      ((∀ n, l.isStale (clock n) = false) → l' = l) ∧
      l' = { l with offsetLag := l'.offsetLag, timeLag := l'.timeLag, timestamp := l'.timestamp } := by
  rcases h with rfl | ⟨n, ol, tl, hs, rfl⟩
  · exact ⟨rfl, rfl, fun _ => rfl, rfl⟩
  · exact ⟨rfl, rfl, fun hn => absurd hs (by simp [hn n]), rfl⟩

/-- `update_stale_lags` only re-estimates: keys, owners, offsets and commit times stay. -/
theorem updateStaleLags_only_reestimates (po : PartitionOffsetsRegister) (clock : ℕ → Int)
    (r : LagByGroup) (g : String) :
    Option.Rel (fun gwl gwl' => gwl'.group = gwl.group ∧
        (∀ tp, gwl'.lagByTopicPartition.contains tp = gwl.lagByTopicPartition.contains tp) ∧
        ∀ tp, Option.Rel (fun lwo lwo' => lwo'.owner = lwo.owner ∧
            Option.Rel (fun l l' => l'.offset = l.offset ∧
                l'.offsetTimestamp = l.offsetTimestamp ∧
                ((∀ n, l.isStale (clock n) = false) → l' = l) ∧
                l' = { l with
                  offsetLag := l'.offsetLag
                  timeLag := l'.timeLag
                  timestamp := l'.timestamp })
              lwo.lag lwo'.lag)
          (gwl.lagByTopicPartition.get? tp) (gwl'.lagByTopicPartition.get? tp))
      (r.get? g) ((updateStaleLags po clock r).get? g) := by
  refine rel_mono (HashMap.rel_lookup_of_forall₂ (updateStaleLagsGroups_refreshed po clock 0 r.toList) g) ?_
  rintro gwl gwl' ⟨hgroup, hl⟩
  refine ⟨hgroup, fun tp => ?_, fun tp => rel_mono (HashMap.rel_lookup_of_forall₂ hl tp) ?_⟩
  · rw [Bool.eq_iff_iff, HashMap.contains_iff_mem_keys, HashMap.contains_iff_mem_keys,
      HashMap.keys, HashMap.keys, HashMap.map_fst_of_forall₂ hl]
  · rintro lwo lwo' ⟨ho, hlag⟩
    exact ⟨ho, rel_mono hlag fun _ _ h => h.frame⟩

/-- The first lag that is not stale ends its group's loop, leaving later entries as they are. -/
theorem updateStaleLagsOf_break_on_fresh (po : PartitionOffsetsRegister) (clock : ℕ → Int)
    (n : ℕ) {pre : List (TopicPartition × LagWithOwner)} (hpre : ∀ e ∈ pre, e.2.lag = none)
    (tp : TopicPartition) {lwo : LagWithOwner} {l : Lag} (hl : lwo.lag = some l)
    (hf : l.isStale (clock n) = false) (rest : List (TopicPartition × LagWithOwner)) :
    updateStaleLagsOf po clock n (pre ++ (tp, lwo) :: rest) = (n + 1, pre ++ (tp, lwo) :: rest) := by
  induction pre with
  | nil =>
    obtain ⟨lag, o⟩ := lwo
    subst hl
    simp [updateStaleLagsOf, hf]
  | cons e pre ih =>
    obtain ⟨tp', ⟨lag, o⟩⟩ := e
    have he : lag = none := hpre _ (List.mem_cons_self _ _)
    subst he
    simp [updateStaleLagsOf, ih fun e h => hpre e (List.mem_cons_of_mem _ h)]

/-- One group whose entries iterate a lag committed at `now`, then one committed 7 s before. -/
def freshThenStale (now : Int) : LagByGroup :=
  HashMap.fromList [("g", ⟨⟨"g", "Stable", "range", "consumer"⟩, HashMap.fromList
    [(⟨"t", 0⟩, ⟨some ⟨10, now, now, 0, 0⟩, none⟩),
     (⟨"t", 1⟩, ⟨some ⟨10, now - Duration.seconds 7, now - Duration.seconds 7, 0, 0⟩, none⟩)]⟩)]

/-- At 100 s the stale lag of `(t, 1)` comes out of the pass unrefreshed, stamped 93 s. -/
theorem updateStaleLags_skips_stale_after_fresh :
    Lag.isStale ⟨10, Duration.seconds 93, Duration.seconds 93, 0, 0⟩ (Duration.seconds 100) ∧
    (updateStaleLags ⟨fun _ => some ⟨20, Duration.seconds 100⟩, fun _ _ => some 10,
        fun _ _ _ => some 0⟩ (fun _ => Duration.seconds 100)
        (freshThenStale (Duration.seconds 100))).lagAt "g" ⟨"t", 1⟩ =
      some ⟨10, Duration.seconds 93, Duration.seconds 93, 0, 0⟩ := by
  decide

end ConsumerLag
