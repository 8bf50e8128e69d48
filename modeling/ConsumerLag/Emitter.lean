import ConsumerLag.Select

/-!
# The emitter loops

`ClusterStatusEmitter::spawn` and `ConsumerGroupsEmitter::spawn` run the same loop over their
own snapshots (a `ClusterStatus` built from `fetch_metadata`, `ConsumerGroups` from
`fetch_group_list`): fetch; on success race `sx.send_timeout(..)` against
`shutdown_rx.recv()` in a `select!`, breaking out of the loop on the shutdown arm; then await
the interval's next tick. The loop never looks into a snapshot, so `α` stands for either. The
fetch's answer, whether the send has completed and the select's choice come from outside.
`recv` becomes ready when the shutdown is broadcast, or when its sender is dropped (`main`
drops it when `ctrlc::set_handler` fails), and only the `select!` polls it.
-/
namespace ConsumerLag

/-- Where the loop stands: fetch, `select!` with its snapshot, awaiting the tick, or out. -/
inductive EmitterPc (α : Type)
  | fetch
  | select (snapshot : α)
  | tick
  | ended
  deriving DecidableEq, Repr

/-- The task, and whether `shutdown_rx.recv()` is ready. -/
structure Emitter (α : Type) where
  pc : EmitterPc α
  shutdown : Bool
  deriving DecidableEq, Repr

/-- What others see: a fetch with its answer (`none` for an `Err`), or a snapshot sent. -/
inductive EmitterEffect (α : Type)
  | fetched (answer : Option α)
  | emitted (snapshot : α)
  deriving DecidableEq, Repr

/-- The fetch's answer, the send's completion and delivery, and the select's choice. -/
structure EmitterInput (α : Type) where
  fetched : Option α
  sendDone : Bool
  delivered : Bool
  arm : ℕ
  deriving DecidableEq

variable {α : Type}

/-- The loop's next step and what it does. -/
def emitterStep (i : EmitterInput α) (s : Emitter α) : Emitter α × List (EmitterEffect α) :=
  match s.pc with
  | .fetch =>
    match i.fetched with
    | some snapshot => ({ s with pc := .select snapshot }, [.fetched (some snapshot)])
    | none => ({ s with pc := .tick }, [.fetched none])
  | .select snapshot =>
    match selectChoice [.ofReady i.sendDone, .ofReady s.shutdown] i.arm with
    | some (some 0) => ({ s with pc := .tick }, if i.delivered then [.emitted snapshot] else [])
    | some (some 1) => ({ pc := .ended, shutdown := false }, [])
    | _ => (s, [])
  | .tick => ({ s with pc := .fetch }, [])
  | .ended => (s, [])

/-- A step of the task, the broadcast of the shutdown, or the drop of its sender. -/
inductive EmitterAction (α : Type)
  | broadcast
  | dropSender
  | step (i : EmitterInput α)
  deriving DecidableEq

def EmitterAction.isShutdown : EmitterAction α → Bool
  | step _ => false
  | _ => true

def Emitter.act (s : Emitter α) : EmitterAction α → Emitter α × List (EmitterEffect α)
  | .broadcast | .dropSender => ({ s with shutdown := true }, [])
  | .step i => emitterStep i s

/-- The state after the actions `acts`, and what the task did meanwhile. -/
def emitterRun : Emitter α → List (EmitterAction α) → Emitter α × List (EmitterEffect α)
  | s, [] => (s, [])
  | s, a :: acts =>
    let r := emitterRun (s.act a).1 acts
    (r.1, (s.act a).2 ++ r.2)

/-- `spawn`: the loop starts at its fetch, with `recv` not ready. -/
def Emitter.init : Emitter α := ⟨.fetch, false⟩

theorem emitterRun_append (s : Emitter α) (acts acts' : List (EmitterAction α)) :
    emitterRun s (acts ++ acts') =
      ((emitterRun (emitterRun s acts).1 acts').1,
        (emitterRun s acts).2 ++ (emitterRun (emitterRun s acts).1 acts').2) := by
  induction acts generalizing s with
  | nil => simp [emitterRun]
  | cons a acts ih => simp [emitterRun, ih]

/-- With `recv` not ready, the select's only arm that can be ready is the send's. -/
theorem selectChoice_ne_shutdown (sendDone : Bool) (k : ℕ) :
    selectChoice [.ofReady sendDone, .ofReady false] k ≠ some (some 1) := fun h =>
  absurd (some_mem_selectArms.mp (List.getElem?_mem h)) (by simp [BranchPoll.ofReady])

/-- A step does nothing, moves within the loop, or leaves it at a `select!` with `recv` ready. -/
theorem emitterStep_cases (i : EmitterInput α) (s : Emitter α) :
    (emitterStep i s).1 = s ∨
    ((emitterStep i s).1.shutdown = s.shutdown ∧ s.pc ≠ .ended ∧ (emitterStep i s).1.pc ≠ .ended) ∨
    (s.shutdown = true ∧ (emitterStep i s).1 = ⟨.ended, false⟩) := by
  obtain ⟨pc, b⟩ := s
  cases pc with
  | fetch =>
    simp only [emitterStep]
    split <;> exact .inr (.inl ⟨rfl, nofun, nofun⟩)
  | select snapshot =>
    simp only [emitterStep]
    split
    · exact .inr (.inl ⟨rfl, nofun, nofun⟩)
    · next h =>
      cases b
      · exact absurd h (selectChoice_ne_shutdown _ _)
      · exact .inr (.inr ⟨rfl, rfl⟩)
    · exact .inl rfl
  | tick => exact .inr (.inl ⟨rfl, nofun, nofun⟩)
  | ended => exact .inl rfl

theorem emitterStep_not_ended {s : Emitter α} (hs : s.shutdown = false) (hpc : s.pc ≠ .ended)
    (i : EmitterInput α) :
    (emitterStep i s).1.shutdown = false ∧ (emitterStep i s).1.pc ≠ .ended := by
  rcases emitterStep_cases i s with h | ⟨h, -, hpc'⟩ | ⟨h, -⟩
  · rw [h]
    exact ⟨hs, hpc⟩
  · exact ⟨h.trans hs, hpc'⟩
  · exact absurd (hs.symm.trans h) Bool.false_ne_true

/-- Without a broadcast or a dropped sender, the task never leaves its loop. -/
theorem emitterRun_not_ended_without_shutdown (acts : List (EmitterAction α))
    (hacts : ∀ a ∈ acts, a.isShutdown = false) :
    (emitterRun Emitter.init acts).1.pc ≠ .ended := by
  suffices ∀ s : Emitter α, s.shutdown = false → s.pc ≠ .ended →
      (emitterRun s acts).1.shutdown = false ∧ (emitterRun s acts).1.pc ≠ .ended from
    (this _ rfl fun h => by cases h).2
  induction acts with
  | nil => exact fun s hs hpc => ⟨hs, hpc⟩
  | cons a acts ih =>
    intro s hs hpc
    cases a with
    | step i =>
      obtain ⟨hs', hpc'⟩ := emitterStep_not_ended hs hpc i
      exact ih (fun a ha => hacts a (List.mem_cons_of_mem _ ha)) _ hs' hpc'
    | _ => cases hacts _ (List.mem_cons_self _ _)

/-- A fetch, a delivered send, then a failing fetch. -/
def fetchSendFail : List (EmitterAction ℕ) :=
  [.step ⟨some 1, false, false, 0⟩, .step ⟨none, true, true, 0⟩, .step ⟨none, false, false, 0⟩,
    .step ⟨none, false, false, 0⟩]

theorem emitterRun_not_ended_after_send :
    (∀ a ∈ fetchSendFail, a.isShutdown = false) ∧
      (emitterRun Emitter.init fetchSendFail).1.pc ≠ .ended :=
  have h : ∀ a ∈ fetchSendFail, a.isShutdown = false := by decide
  ⟨h, emitterRun_not_ended_without_shutdown _ h⟩

/-- Once broadcast, or once its sender is dropped, `recv` stays ready until the loop is left. -/
def ShutdownPending (s : Emitter α) : Prop := s.shutdown = true ∨ s.pc = .ended

theorem shutdownPending_act {s : Emitter α} (h : ShutdownPending s) (a : EmitterAction α) :
    ShutdownPending (s.act a).1 := by
  cases a with
  | step i =>
    rcases emitterStep_cases i s with he | ⟨he, hpc, -⟩ | ⟨-, he⟩
    · exact (congrArg ShutdownPending he).mpr h
    · exact .inl (he.trans (h.resolve_right hpc))
    · exact .inr (congrArg Emitter.pc he)
  | _ => exact .inl rfl

theorem shutdownPending_run {s : Emitter α} (h : ShutdownPending s) (acts : List (EmitterAction α)) :
    ShutdownPending (emitterRun s acts).1 := by
  induction acts generalizing s with
  | nil => exact h
  | cons a acts ih => exact ih (shutdownPending_act h a)

/-- Out of the loop the task does nothing more. -/
theorem emitterRun_ended (b : Bool) (acts : List (EmitterAction α)) :
    (emitterRun ⟨.ended, b⟩ acts).1.pc = .ended ∧ (emitterRun ⟨.ended, b⟩ acts).2 = [] := by
  induction acts generalizing b with
  | nil => exact ⟨rfl, rfl⟩
  | cons a acts ih =>
    cases a with
    | step i => exact ih b
    | _ => exact ih true

/-- At a `select!` whose send has not completed, a ready `recv` is the only ready arm. -/
theorem emitterStep_select_unready {snapshot : α} {s : Emitter α} (hpc : s.pc = .select snapshot)
    (hsh : s.shutdown = true) {i : EmitterInput α} (hi : i.sendDone = false) :
    emitterStep i s = (⟨.ended, false⟩, []) := by
  have harms : selectArms [.ofReady false, .ofReady true] = [some 1] := by decide
  unfold emitterStep
  rw [hpc, hi, hsh]
  simp [selectChoice, harms, Nat.mod_one]

/-- Once `recv` is ready, the task ends at the first `select!` whose send has not completed. -/
theorem emitterRun_ends_at_unready_select {s : Emitter α} (hsh : s.shutdown = true)
    (pre : List (EmitterAction α)) {snapshot : α}
    (hpc : (emitterRun s pre).1.pc = .select snapshot) {i : EmitterInput α}
    (hi : i.sendDone = false) (post : List (EmitterAction α)) :
    (emitterRun s (pre ++ .step i :: post)).1.pc = .ended ∧
      (emitterRun s (pre ++ .step i :: post)).2 = (emitterRun s pre).2 := by
  have hsh' : (emitterRun s pre).1.shutdown = true :=
    (shutdownPending_run (.inl hsh) pre).resolve_right (by rw [hpc]; simp)
  obtain ⟨h1, h2⟩ := emitterRun_ended false post
  rw [emitterRun_append]
  simp only [emitterRun, Emitter.act, emitterStep_select_unready hpc hsh' hi, h1, h2,
    List.append_nil, and_self]

theorem emitterRun_ends_at_unready_select_after_fetch :
    (emitterRun (⟨.tick, true⟩ : Emitter ℕ)
        ([.step ⟨none, false, false, 0⟩, .step ⟨some 7, false, false, 0⟩] ++
          [.step ⟨none, false, false, 0⟩])).1.pc = .ended ∧
      (emitterRun (⟨.tick, true⟩ : Emitter ℕ)
        ([.step ⟨none, false, false, 0⟩, .step ⟨some 7, false, false, 0⟩] ++
          [.step ⟨none, false, false, 0⟩])).2 = [.fetched (some 7)] := by
  have hpc : (emitterRun (⟨.tick, true⟩ : Emitter ℕ)
      [.step ⟨none, false, false, 0⟩, .step ⟨some 7, false, false, 0⟩]).1.pc = .select 7 := rfl
  exact emitterRun_ends_at_unready_select rfl _ hpc rfl []

/-- Shutdown broadcast and every fetch failing: the loop goes round for ever, fetching. -/
theorem emitterRun_keeps_fetching_after_shutdown (b d : Bool) (k n : ℕ) :
    emitterRun (Emitter.init : Emitter α)
        (.broadcast :: List.replicate (2 * n) (.step ⟨none, b, d, k⟩)) =
      (⟨.fetch, true⟩, List.replicate n (.fetched none)) := by
  have turn : ∀ acts, emitterRun (⟨.fetch, true⟩ : Emitter α)
      (.step ⟨none, b, d, k⟩ :: .step ⟨none, b, d, k⟩ :: acts) =
        ((emitterRun ⟨.fetch, true⟩ acts).1, .fetched none :: (emitterRun ⟨.fetch, true⟩ acts).2) :=
    fun _ => rfl
  show emitterRun ⟨.fetch, true⟩ (List.replicate (2 * n) (.step ⟨none, b, d, k⟩)) = _
  induction n with
  | zero => rfl
  | succ n ih =>
    rw [Nat.mul_succ, List.replicate_succ, List.replicate_succ, turn, ih]
    rfl

/- With the shutdown broadcast during the tick, the next `select!` may take a completed send
over the shutdown and deliver one more snapshot. -/
example :
    emitterRun (Emitter.init : Emitter ℕ)
        [.step ⟨some 1, false, false, 0⟩, .step ⟨none, true, true, 0⟩, .broadcast,
          .step ⟨none, false, false, 0⟩, .step ⟨some 2, false, false, 0⟩,
          .step ⟨none, true, true, 0⟩] =
      (⟨.tick, true⟩, [.fetched (some 1), .emitted 1, .fetched (some 2), .emitted 2]) := by
  decide

/-- Fetches, each with its answer and whether its snapshot was then delivered. -/
def fetchBlocks (bs : List (Option α × Bool)) : List (EmitterEffect α) :=
  bs.flatMap fun b => .fetched b.1 :: if b.2 then b.1.toList.map .emitted else []

theorem fetchBlocks_append (bs bs' : List (Option α × Bool)) :
    fetchBlocks (bs ++ bs') = fetchBlocks bs ++ fetchBlocks bs' :=
  List.flatMap_append ..

/-- At a `select!`, the last fetch got the snapshot to send and has delivered nothing yet. -/
def FetchOpen (s : Emitter α) (bs : List (Option α × Bool)) : Prop :=
  ∀ x, s.pc = .select x → bs.getLast? = some (some x, false)

theorem fetchOpen_act {s : Emitter α} {bs : List (Option α × Bool)} (h : FetchOpen s bs)
    (a : EmitterAction α) :
    ∃ bs', fetchBlocks bs ++ (s.act a).2 = fetchBlocks bs' ∧ FetchOpen (s.act a).1 bs' := by
  cases a with
  | step i =>
    obtain ⟨pc, b⟩ := s
    cases pc with
    | fetch =>
      simp only [Emitter.act, emitterStep]
      split
      · rename_i snapshot _
        exact ⟨bs ++ [(some snapshot, false)], by simp [fetchBlocks_append, fetchBlocks],
          fun _ hx => by cases hx; exact List.getLast?_concat ..⟩
      · exact ⟨bs ++ [(none, false)], by simp [fetchBlocks_append, fetchBlocks], nofun⟩
    | select snapshot =>
      simp only [Emitter.act, emitterStep]
      split
      · obtain ⟨bs₀, rfl⟩ := List.getLast?_eq_some_iff.mp (h snapshot rfl)
        cases i.delivered
        · exact ⟨bs₀ ++ [(some snapshot, false)], by simp, nofun⟩
        · exact ⟨bs₀ ++ [(some snapshot, true)], by simp [fetchBlocks_append, fetchBlocks],
            nofun⟩
      · exact ⟨bs, List.append_nil _, nofun⟩
      · exact ⟨bs, List.append_nil _, h⟩
    | tick => exact ⟨bs, List.append_nil _, nofun⟩
    | ended => exact ⟨bs, List.append_nil _, h⟩
  | _ => exact ⟨bs, List.append_nil _, h⟩

theorem fetchOpen_run {s : Emitter α} {bs : List (Option α × Bool)} (h : FetchOpen s bs)
    (acts : List (EmitterAction α)) :
    ∃ bs', fetchBlocks bs ++ (emitterRun s acts).2 = fetchBlocks bs' ∧
      FetchOpen (emitterRun s acts).1 bs' := by
  induction acts generalizing s bs with
  | nil => exact ⟨bs, List.append_nil _, h⟩
  | cons a acts ih =>
    obtain ⟨bs₁, h₁, ho₁⟩ := fetchOpen_act h a
    obtain ⟨bs₂, h₂, ho₂⟩ := ih ho₁
    exact ⟨bs₂, by rw [emitterRun, ← List.append_assoc, h₁, h₂], ho₂⟩

/-- Each delivery is of the snapshot just fetched, and no fetch is delivered twice. -/
theorem emitterRun_one_delivery_per_fetch (acts : List (EmitterAction α)) :
    ∃ bs, (emitterRun Emitter.init acts).2 = fetchBlocks bs :=
  let ⟨bs, h, _⟩ := fetchOpen_run (show FetchOpen (Emitter.init : Emitter α) [] from nofun) acts
  ⟨bs, h⟩

end ConsumerLag
