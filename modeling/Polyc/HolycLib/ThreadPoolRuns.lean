import Mathlib.Tactic.Abel
import Polyc.HolycLib.ThreadPool

/-!
# Runs of the thread pool

What a statement of `threads.HC` does with each part of the shared state, by the place of the
thread before and after it, and the invariant of all reachable states that follows.  The mutexes
are held by the thread that is inside, the counters count the threads at some places, and the
jobs that were taken have returned or are at hand of one thread each.
-/

namespace Polyc

open Interleaving

variable {T F A : Type} [DecidableEq T]

/-! ### Places -/

namespace PoolPlace

/-- Inside of `pool->lock`. -/
def hasLock : PoolPlace F A → Bool
  | waitJobs _ | waitActive _ | waitSleep _ | waitUnlock _ | startCount | startUnlock
  | activeCount | activeUnlock | doneCount | doneSignal | doneUnlock => true
  | _ => false

/-- Inside of `pool->qlock`. -/
def hasQlock : PoolPlace F A → Bool
  | enqueueAppend _ _ | enqueueUnlock _ | signalLock _ | signalSet _ | signalCond _
  | signalUnlock _ | dequeueTake | dequeueUnlock _ => true
  | _ => false

/-- Inside of `sem->lk`. -/
def hasSemLk : PoolPlace F A → Bool
  | signalSet _ | signalCond _ | signalUnlock _ | semTest | semClear | semUnlock => true
  | _ => false

end PoolPlace

/-- The job whose callback has made a call. -/
def EnqueueCaller.job? : EnqueueCaller F A → Option (ThreadWorkerJob F A)
  | .client => none
  | .job j => some j

/-- The job that the caller has at hand. -/
def SignalCaller.job? : SignalCaller F A → Option (ThreadWorkerJob F A)
  | .enqueue c => c.job?
  | .dequeue j => some j

namespace PoolPlace

/-- The job that the thread has taken and that has not returned. -/
def job? : PoolPlace F A → Option (ThreadWorkerJob F A)
  | enqueueLock c _ | enqueueAppend c _ | enqueueUnlock c => c.job?
  | signalLock g | signalSet g | signalCond g | signalUnlock g => g.job?
  | dequeueUnlock j => j
  | calling j => some j
  | _ => none

/-- The jobs that the thread has taken and that have not returned. -/
def running (p : PoolPlace F A) : Multiset (ThreadWorkerJob F A) := p.job?.elim 0 fun j => {j}

/-- Whether `active_threads` counts the thread. -/
def isActive : PoolPlace F A → Bool
  | activeUnlock | dequeueLock | dequeueTake | doneLock | doneCount => true
  | dequeueUnlock _ => true
  | p => p.job?.isSome

/-- Whether `alive_threads` counts the thread. -/
def isAlive : PoolPlace F A → Bool
  | startUnlock | semLock | semTest | semAsleep | semClear | semUnlock | activeLock | activeCount
  | doneSignal | doneUnlock => true
  | p => p.isActive

/-- The thread is a worker. -/
def ofWorker : PoolPlace F A → Bool
  | startLock | startCount => true
  | p => p.isAlive

/-- The thread is about to set `sem->val`, or to look at the jobs. -/
def attends : PoolPlace F A → Bool
  | signalLock _ | signalSet _ | semUnlock | activeLock | activeCount | activeUnlock
  | dequeueLock | dequeueTake => true
  | _ => false

/-- The thread has seen that the semaphore is set. -/
def clears : PoolPlace F A → Bool
  | semClear => true
  | _ => false

/-- The thread is about to wake up a worker. -/
def wakesWorker : PoolPlace F A → Bool
  | signalCond _ => true
  | _ => false

/-- The thread is about to wake up a thread that waits. -/
def wakesWaiter : PoolPlace F A → Bool
  | doneSignal => true
  | _ => false

/-- The thread is in `ThreadPoolWait`. -/
def inWait : PoolPlace F A → Bool
  | waitLock _ | waitJobs _ | waitActive _ | waitSleep _ | waitAsleep _ | waitUnlock _ => true
  | _ => false

/-- The number of jobs that had been enqueued when `ThreadPoolWait` was called. -/
def since : PoolPlace F A → Nat
  | waitLock n | waitJobs n | waitActive n | waitSleep n | waitAsleep n | waitUnlock n => n
  | _ => 0

/-- The thread has seen that there is something to wait for. -/
def dozes : PoolPlace F A → Bool
  | waitSleep _ => true
  | _ => false

/-- The thread sleeps in `ThreadPoolWait`. -/
def asleepInWait : PoolPlace F A → Bool
  | waitAsleep _ => true
  | _ => false

end PoolPlace

/-! ### Steps -/

variable {waits : T → Prop} {t : T} {s s' : ThreadPool T F A} {p p' : PoolPlace F A}

theorem PoolStep.lock (h : PoolStep waits t s p s' p') :
  Handles PoolPlace.hasLock t s.lock p s'.lock p'
  := by
  rcases h with h | h
  · cases h
    case enqueueUnlock c => cases c <;> exact .leave rfl rfl
    case signalUnlock g => cases g <;> exact .leave rfl rfl
    all_goals
      first
      | exact .leave rfl rfl
      | exact .lock ‹_› rfl rfl
      | exact .unlock rfl rfl rfl
  · cases h <;> exact .leave rfl rfl

theorem PoolStep.qlock (h : PoolStep waits t s p s' p') :
  Handles PoolPlace.hasQlock t s.qlock p s'.qlock p'
  := by
  rcases h with h | h
  · cases h
    case enqueueUnlock c => cases c <;> exact .unlock rfl rfl rfl
    case signalUnlock g => cases g <;> exact .leave rfl rfl
    all_goals
      first
      | exact .leave rfl rfl
      | exact .lock ‹_› rfl rfl
      | exact .unlock rfl rfl rfl
  · cases h <;> exact .leave rfl rfl

theorem PoolStep.semLk (h : PoolStep waits t s p s' p') :
  Handles PoolPlace.hasSemLk t s.semLk p s'.semLk p'
  := by
  rcases h with h | h
  · cases h
    case enqueueUnlock c => cases c <;> exact .leave rfl rfl
    case signalUnlock g => cases g <;> exact .unlock rfl rfl rfl
    all_goals
      first
      | exact .leave rfl rfl
      | exact .lock ‹_› rfl rfl
      | exact .unlock rfl rfl rfl
  · cases h <;> exact .leave rfl rfl

/-- The counter `active_threads` counts the threads. -/
theorem PoolStep.active
    (h : PoolStep waits t s p s' p') (hpos : p.isActive.toNat ≤ s.activeThreads) :
  s'.activeThreads + p.isActive.toNat = s.activeThreads + p'.isActive.toNat
  := by
  rcases h with h | h
  · cases h
    case enqueueUnlock c => cases c <;> rfl
    case signalUnlock g => cases g <;> rfl
    case doneCount => exact Nat.sub_add_cancel hpos
    case doneCountLast => exact Nat.sub_add_cancel hpos
    all_goals rfl
  · cases h <;> rfl

/-- The counter `alive_threads` counts the workers that have come up. -/
theorem PoolStep.alive (h : PoolStep waits t s p s' p') :
  s'.aliveThreads + p.isAlive.toNat = s.aliveThreads + p'.isAlive.toNat
  := by
  rcases h with h | h
  · cases h
    case enqueueUnlock c => cases c <;> rfl
    case signalUnlock g => cases g <;> rfl
    all_goals rfl
  · cases h <;> rfl

/-- A worker stays a worker. -/
theorem PoolStep.ofWorker (h : PoolStep waits t s p s' p') :
  p'.ofWorker = p.ofWorker
  := by
  rcases h with h | h
  · cases h
    case enqueueUnlock c => cases c <;> rfl
    case signalUnlock g => cases g <;> rfl
    all_goals rfl
  · cases h <;> rfl

/-- Jobs that are enqueued are behind those that are in the list. -/
theorem PoolStep.fifo
    (h : PoolStep waits t s p s' p') (hfifo : s.enqueued = s.started ++ s.jobs) :
  s'.enqueued = s'.started ++ s'.jobs
  := by
  rcases h with h | h
  · cases h
    case enqueueAppend j => exact (congrArg (· ++ [j]) hfifo).trans (List.append_assoc ..)
    case dequeueTake j js hjobs =>
      rw [hjobs] at hfifo
      exact hfifo.trans (List.append_cons ..)
    all_goals exact hfifo
  · cases h <;> exact hfifo

/-- A job that is taken is run by the thread that has taken it, until it has returned. -/
theorem PoolStep.running (h : PoolStep waits t s p s' p') :
  (s'.started : Multiset (ThreadWorkerJob F A)) + s.finished + p.running
    = (s.started : Multiset (ThreadWorkerJob F A)) + s'.finished + p'.running
  := by
  rcases h with h | h
  · cases h
    case enqueueUnlock c => cases c <;> rfl
    case signalUnlock g => cases g <;> rfl
    case dequeueTake j js hjobs =>
      rw [← Multiset.coe_add, add_right_comm (s.started : Multiset (ThreadWorkerJob F A))]
      exact add_zero _
    case calling j =>
      rw [← Multiset.singleton_add, ← add_assoc, add_right_comm]
      exact (add_zero _).symm
    all_goals rfl
  · cases h <;> rfl

/-- The history only grows. -/
theorem PoolStep.history (h : PoolStep waits t s p s' p') :
  s.enqueued <+: s'.enqueued ∧ s.started <+: s'.started ∧ s.finished ≤ s'.finished
  := by
  rcases h with h | h
  · cases h
    case enqueueAppend => exact ⟨List.prefix_append .., List.prefix_rfl, le_refl _⟩
    case dequeueTake => exact ⟨List.prefix_rfl, List.prefix_append .., le_refl _⟩
    case calling => exact ⟨List.prefix_rfl, List.prefix_rfl, Multiset.le_cons_self ..⟩
    all_goals exact ⟨List.prefix_rfl, List.prefix_rfl, le_refl _⟩
  · cases h <;> exact ⟨List.prefix_rfl, List.prefix_rfl, le_refl _⟩

/-- Jobs that come up have somebody who attends to them. -/
theorem PoolStep.attends (h : PoolStep waits t s p s' p') :
  (s'.jobs ≠ [] → s.jobs ≠ [] ∨ p'.attends = true)
    ∧ (s.val = 1 → s'.val = 1 ∨ p'.attends = true)
    ∧ (p.attends = true → s'.jobs = [] ∨ s'.val = 1 ∨ p'.attends = true)
  := by
  rcases h with h | h
  · cases h
    case enqueueAppend => exact ⟨fun _ => .inr rfl, .inl, nofun⟩
    case signalSet => exact ⟨.inl, fun _ => .inl rfl, fun _ => .inr (.inl rfl)⟩
    case semClear => exact ⟨.inl, fun _ => .inr rfl, nofun⟩
    case dequeueTake => exact ⟨fun _ => .inr rfl, .inl, fun _ => .inr (.inr rfl)⟩
    case dequeueNothing hjobs => exact ⟨.inl, .inl, fun _ => .inl hjobs⟩
    all_goals
      first
      | exact ⟨.inl, .inl, fun _ => .inr (.inr rfl)⟩
      | exact ⟨.inl, .inl, Bool.noConfusion⟩
  · cases h <;> exact ⟨.inl, .inl, Bool.noConfusion⟩
/-- The threads that sleep on the semaphore are in its wait. -/
theorem PoolStep.asleep
    (h : PoolStep waits t s p s' p') (ht : t ∈ s.condSleepers → p = .semAsleep) {u : T}
    (hu : u ∈ s'.condSleepers) :
  u ∈ s.condSleepers ∧ u ≠ t ∨ u = t ∧ p' = .semAsleep
  := by
  have hother : p ≠ .semAsleep → u ∈ s.condSleepers →
      u ∈ s.condSleepers ∧ u ≠ t ∨ u = t ∧ p' = .semAsleep := by
    intro hp hus
    left
    use hus
    intro hut
    exact hp (ht (hut ▸ hus))
  rcases h with h | h
  · cases h
    case signalCond hsignal =>
      cases hsignal with
      | one => exact hother nofun (Finset.mem_of_mem_erase hu)
      | nobody => exact hother nofun hu
    case semSleep =>
      rcases Finset.mem_insert.mp hu with hut | hus
      · exact .inr ⟨hut, rfl⟩
      · exact hother nofun hus
    case semWoken hwoken _ => exact .inl ⟨hu, fun hut => hwoken (hut ▸ hu)⟩
    all_goals exact hother nofun hu
  · cases h
    case wakeWorker =>
      obtain ⟨hut, hus⟩ := Finset.mem_erase.mp hu
      exact .inl ⟨hus, hut⟩
    all_goals exact hother nofun hu

/-- The threads that sleep on `no_work` are in `ThreadPoolWait`. -/
theorem PoolStep.asleepInWait
    (h : PoolStep waits t s p s' p') (ht : t ∈ s.noWorkSleepers → p.asleepInWait = true) {u : T}
    (hu : u ∈ s'.noWorkSleepers) :
  u ∈ s.noWorkSleepers ∧ u ≠ t ∨ u = t ∧ p'.asleepInWait = true
  := by
  have hother : p.asleepInWait = false → u ∈ s.noWorkSleepers →
      u ∈ s.noWorkSleepers ∧ u ≠ t ∨ u = t ∧ p'.asleepInWait = true := by
    intro hp hus
    left
    use hus
    intro hut
    exact Bool.false_ne_true (hp.symm.trans (ht (hut ▸ hus)))
  rcases h with h | h
  · cases h
    case doneSignal hsignal =>
      cases hsignal with
      | one => exact hother rfl (Finset.mem_of_mem_erase hu)
      | nobody => exact hother rfl hu
    case waitSleep =>
      rcases Finset.mem_insert.mp hu with hut | hus
      · exact .inr ⟨hut, rfl⟩
      · exact hother rfl hus
    case waitWoken hwoken _ => exact .inl ⟨hu, fun hut => hwoken (hut ▸ hu)⟩
    all_goals exact hother rfl hu
  · cases h
    case wakeWaiter =>
      obtain ⟨hut, hus⟩ := Finset.mem_erase.mp hu
      exact .inl ⟨hus, hut⟩
    all_goals exact hother rfl hu

/-- The semaphore stays set while a thread that has seen it may clear it. -/
theorem PoolStep.clears (h : PoolStep waits t s p s' p') :
  (p'.clears = true → s'.val = 1)
    ∧ (s.val = 1 → s'.val = 1 ∨ p.clears = true)
  := by
  rcases h with h | h
  · cases h
    case enqueueUnlock c => cases c <;> exact ⟨Bool.noConfusion, .inl⟩
    case signalUnlock g => cases g <;> exact ⟨Bool.noConfusion, .inl⟩
    case signalSet => exact ⟨Bool.noConfusion, fun _ => .inl rfl⟩
    case semTest hval => exact ⟨fun _ => hval, .inl⟩
    case semClear => exact ⟨Bool.noConfusion, fun _ => .inr rfl⟩
    all_goals exact ⟨Bool.noConfusion, .inl⟩
  · cases h <;> exact ⟨Bool.noConfusion, .inl⟩

/-- A worker falls asleep when the semaphore is not set, and who sets it wakes one up. -/
theorem PoolStep.wakesWorker (h : PoolStep waits t s p s' p') :
  (s'.val = 1 → s.val = 1 ∧ s'.condSleepers ⊆ s.condSleepers ∨ p'.wakesWorker = true)
    ∧ (p.wakesWorker = true → CondSignal s.condSleepers s'.condSleepers)
  := by
  rcases h with h | h
  · cases h
    case signalSet => exact ⟨fun _ => .inr rfl, Bool.noConfusion⟩
    case signalCond hsignal =>
      use fun hval => .inl ⟨hval, by cases hsignal <;> simp [Finset.erase_subset]⟩
      exact fun _ => hsignal
    case semSleep hval => exact ⟨fun hval' => absurd hval' hval, Bool.noConfusion⟩
    case semClear => exact ⟨fun hval => absurd hval Nat.zero_ne_one, Bool.noConfusion⟩
    all_goals exact ⟨fun hval => .inl ⟨hval, Finset.Subset.refl _⟩, Bool.noConfusion⟩
  · cases h
    case wakeWorker => exact ⟨fun hval => .inl ⟨hval, Finset.erase_subset ..⟩, Bool.noConfusion⟩
    all_goals exact ⟨fun hval => .inl ⟨hval, Finset.Subset.refl _⟩, Bool.noConfusion⟩

/-- A thread that waits falls asleep when there is work, and the last worker to go wakes it up. -/
theorem PoolStep.wakesWaiter
    (h : PoolStep waits t s p s' p') (hpos : p.isActive.toNat ≤ s.activeThreads) :
  (s.jobs ≠ [] ∨ s.activeThreads ≠ 0 →
      s'.jobs ≠ [] ∨ s'.activeThreads ≠ 0 ∨ p'.wakesWaiter = true)
    ∧ (p'.dozes = true → s'.jobs ≠ [] ∨ s'.activeThreads ≠ 0)
    ∧ (s'.noWorkSleepers.Nonempty → s.noWorkSleepers.Nonempty ∨ p.dozes = true)
    ∧ (p.wakesWaiter = true → CondSignal s.noWorkSleepers s'.noWorkSleepers)
  := by
  rcases h with h | h
  · cases h
    case enqueueAppend j =>
      exact ⟨fun _ => .inl (List.append_ne_nil_of_right_ne_nil _ (List.cons_ne_nil _ _)),
        Bool.noConfusion, .inl, Bool.noConfusion⟩
    case enqueueUnlock c | signalUnlock c =>
      cases c
      all_goals
        exact ⟨fun hwork => hwork.imp_right .inl, Bool.noConfusion, .inl, Bool.noConfusion⟩
    case waitJobs hjobs =>
      exact ⟨fun hwork => hwork.imp_right .inl, fun _ => .inl hjobs, .inl, Bool.noConfusion⟩
    case waitActive hactive =>
      exact ⟨fun hwork => hwork.imp_right .inl, fun _ => .inr hactive, .inl, Bool.noConfusion⟩
    case waitSleep =>
      exact ⟨fun hwork => hwork.imp_right .inl, Bool.noConfusion, fun _ => .inr rfl,
        Bool.noConfusion⟩
    case activeCount =>
      exact ⟨fun _ => .inr (.inl (Nat.succ_ne_zero _)), Bool.noConfusion, .inl, Bool.noConfusion⟩
    case dequeueTake =>
      exact ⟨fun _ => .inr (.inl (Nat.ne_of_gt hpos)), Bool.noConfusion, .inl, Bool.noConfusion⟩
    case doneCount hactive =>
      exact ⟨fun _ => .inr (.inl hactive), Bool.noConfusion, .inl, Bool.noConfusion⟩
    case doneCountLast =>
      exact ⟨fun _ => .inr (.inr rfl), Bool.noConfusion, .inl, Bool.noConfusion⟩
    case doneSignal hsignal =>
      refine ⟨fun hwork => hwork.imp_right .inl, Bool.noConfusion, ?_, fun _ => hsignal⟩
      intro hnonempty
      left
      cases hsignal with
      | one hu => exact ⟨_, hu⟩
      | nobody => exact hnonempty
    all_goals
      exact ⟨fun hwork => hwork.imp_right .inl, Bool.noConfusion, .inl, Bool.noConfusion⟩
  · cases h
    case wakeWaiter =>
      exact ⟨fun hwork => hwork.imp_right .inl, Bool.noConfusion,
        fun hnonempty => .inl (hnonempty.mono (Finset.erase_subset ..)), Bool.noConfusion⟩
    all_goals
      exact ⟨fun hwork => hwork.imp_right .inl, Bool.noConfusion, .inl, Bool.noConfusion⟩

/-- Only those threads wait that may. -/
theorem PoolStep.inWait
    (h : PoolStep waits t s p s' p') (hp : p.inWait = true → waits t) (hp' : p'.inWait = true) :
  waits t
  := by
  rcases h with h | h
  · cases h
    case enqueueUnlock c => cases c <;> exact Bool.noConfusion hp'
    case signalUnlock g => cases g <;> exact Bool.noConfusion hp'
    all_goals
      first
      | exact hp rfl
      | exact Bool.noConfusion hp'
  · cases h
    case wait hwaits => exact hwaits
    all_goals
      first
      | exact hp rfl
      | exact Bool.noConfusion hp'

/-- A call of `ThreadPoolWait` remembers when it was made. -/
theorem PoolStep.since
    (h : PoolStep waits t s p s' p') (hp : p.inWait = true) (hp' : p'.inWait = true) :
  p'.since = p.since
  := by
  rcases h with h | h
  · cases h
    case enqueueUnlock c => cases c <;> exact Bool.noConfusion hp
    case signalUnlock g => cases g <;> exact Bool.noConfusion hp
    all_goals
      first
      | rfl
      | exact Bool.noConfusion hp
      | exact Bool.noConfusion hp'
  · cases h
    case wait => exact Bool.noConfusion hp
    all_goals rfl

/-- What a thread in `ThreadPoolWait` knows of the jobs that had been enqueued when it was called:
when it has seen an empty list, they have been taken, and when it has seen that no worker is
active, they have returned. -/
def PoolPlace.Waited (s : ThreadPool T F A) : PoolPlace F A → Prop
  | .waitLock n | .waitJobs n | .waitSleep n | .waitAsleep n => n ≤ s.enqueued.length
  | .waitActive n => n ≤ s.started.length
  | .waitUnlock n => n ≤ s.enqueued.length
    ∧ (s.enqueued.take n : Multiset (ThreadWorkerJob F A)) ≤ s.finished
  | _ => True

omit [DecidableEq T] in
/-- What a thread knows stays true. -/
theorem PoolPlace.Waited.mono
    (h : p.Waited s) (henqueued : s.enqueued <+: s'.enqueued) (hstarted : s.started <+: s'.started)
    (hfinished : s.finished ≤ s'.finished) :
  p.Waited s'
  := by
  cases p
  case waitActive => exact h.trans hstarted.length_le
  case waitUnlock n =>
    use h.1.trans henqueued.length_le
    obtain ⟨l, hl⟩ := henqueued
    rw [← hl, List.take_append_of_le_length h.1]
    exact h.2.trans hfinished
  all_goals
    first
    | exact h.trans henqueued.length_le
    | trivial

/-- When no worker is active, all jobs that were taken have returned. -/
theorem PoolStep.waited
    (h : PoolStep waits t s p s' p') (hp : p.Waited s) (hfifo : s.enqueued = s.started ++ s.jobs)
    (hreturned : s.activeThreads = 0 → (s.started : Multiset (ThreadWorkerJob F A)) = s.finished) :
  p'.Waited s'
  := by
  rcases h with h | h
  · cases h
    case enqueueUnlock c => cases c <;> trivial
    case signalUnlock g => cases g <;> trivial
    case waitNoJobs n hjobs =>
      rw [hjobs, List.append_nil] at hfifo
      exact hp.trans_eq (congrArg List.length hfifo)
    case waitActive n _ =>
      apply hp.trans
      rw [hfifo, List.length_append]
      exact Nat.le_add_right ..
    case waitNoActive n hactive =>
      have hlen : n ≤ s.started.length := hp
      constructor
      · rw [hfifo, List.length_append]
        exact hlen.trans (Nat.le_add_right ..)
      · rw [hfifo, List.take_append_of_le_length hlen, ← hreturned hactive, Multiset.coe_le]
        exact (List.take_sublist ..).subperm
    all_goals
      first
      | exact hp
      | trivial
  · cases h
    case wait => exact Nat.le_refl s.enqueued.length
    all_goals exact hp

/-! ### Reachable states -/

section Reachable

variable [Fintype T] {worker : T → Bool}
  {c c' : Threads T (ThreadPool T F A) (PoolPlace F A)}

/-- What holds of every state that a pool gets into. -/
structure PoolInv (worker : T → Bool) (waits : T → Prop)
    (c : Threads T (ThreadPool T F A) (PoolPlace F A)) : Prop where
  lock : Held PoolPlace.hasLock c.shared.lock c.place
  qlock : Held PoolPlace.hasQlock c.shared.qlock c.place
  semLk : Held PoolPlace.hasSemLk c.shared.semLk c.place
  active : c.shared.activeThreads = total (fun p => p.isActive.toNat) c.place
  alive : c.shared.aliveThreads = total (fun p => p.isAlive.toNat) c.place
  ofWorker : ∀ t, (c.place t).ofWorker = worker t
  fifo : c.shared.enqueued = c.shared.started ++ c.shared.jobs
  running : (c.shared.started : Multiset (ThreadWorkerJob F A))
    = c.shared.finished + total PoolPlace.running c.place
  waited : ∀ t, (c.place t).Waited c.shared
  asleep : ∀ t ∈ c.shared.condSleepers, c.place t = .semAsleep
  asleepInWait : ∀ t ∈ c.shared.noWorkSleepers, (c.place t).asleepInWait = true
  inWait : ∀ t, (c.place t).inWait = true → waits t
  clears : ∀ t, (c.place t).clears = true → c.shared.val = 1
  /-- Jobs in the list have somebody who attends to them. -/
  attends : c.shared.jobs ≠ [] → c.shared.val = 1 ∨ ∃ t, (c.place t).attends = true
  /-- When the semaphore is set, not all workers sleep, or somebody will wake one up. -/
  wakesWorker : (∃ t, worker t = true) → c.shared.val = 1 →
    (∃ t, (c.place t).wakesWorker = true)
      ∨ ∃ t, worker t = true ∧ t ∉ c.shared.condSleepers
  /-- The thread that waits sleeps while there is work, or somebody will wake it up. -/
  wakesWaiter : (∀ t u, waits t → waits u → t = u) →
    (c.shared.noWorkSleepers.Nonempty ∨ ∃ t, (c.place t).dozes = true) →
    c.shared.jobs ≠ [] ∨ c.shared.activeThreads ≠ 0 ∨ ∃ t, (c.place t).wakesWaiter = true

omit [DecidableEq T] in
/-- An active thread is counted. -/
theorem PoolInv.isActive_le (h : PoolInv worker waits c) (t : T) :
  (c.place t).isActive.toNat ≤ c.shared.activeThreads
  := by
  rw [h.active]
  apply le_total (fun p : PoolPlace F A => p.isActive.toNat) c.place t

/-- A thread that has taken a job is active. -/
theorem PoolPlace.isActive_of_job (h : p.isActive = false) :
  p.running = 0
  := by
  cases p
  case enqueueLock c j | enqueueAppend c j | enqueueUnlock c =>
    cases c with
    | client => rfl
    | job => cases h
  case signalLock g | signalSet g | signalCond g | signalUnlock g =>
    obtain (_ | _) | _ := g
    · rfl
    · cases h
    · cases h
  case dequeueUnlock | calling => cases h
  all_goals rfl

omit [DecidableEq T] in
/-- When no worker is active, no job is running. -/
theorem PoolInv.returned (h : PoolInv worker waits c) (hactive : c.shared.activeThreads = 0) :
  (c.shared.started : Multiset (ThreadWorkerJob F A)) = c.shared.finished
  := by
  rw [h.running, total, Finset.sum_eq_zero, add_zero]
  intro t _
  apply PoolPlace.isActive_of_job
  have hle := h.isActive_le t
  rw [hactive] at hle
  simpa using hle

omit [Fintype T] [DecidableEq T] in
theorem PoolPlace.hasLock_of_dozes (h : p.dozes = true) :
  p.hasLock = true
  := by
  cases p
  case waitSleep => rfl
  all_goals cases h

omit [Fintype T] [DecidableEq T] in
theorem PoolPlace.hasLock_of_wakesWaiter (h : p.wakesWaiter = true) :
  p.hasLock = true
  := by
  cases p
  case doneSignal => rfl
  all_goals cases h

omit [Fintype T] [DecidableEq T] in
theorem PoolPlace.hasSemLk_of_clears (h : p.clears = true) :
  p.hasSemLk = true
  := by
  cases p
  case semClear => rfl
  all_goals cases h

omit [Fintype T] [DecidableEq T] in
theorem PoolPlace.inWait_of_asleepInWait (h : p.asleepInWait = true) :
  p.inWait = true
  := by
  cases p
  case waitAsleep => rfl
  all_goals cases h

/-- When only one thread waits, nobody sleeps after the signal. -/
theorem PoolInv.nobody_left
    (h : PoolInv worker waits c) (hone : ∀ t u, waits t → waits u → t = u) {sleepers : Finset T}
    (hsignal : CondSignal c.shared.noWorkSleepers sleepers) {v : T} :
  v ∉ sleepers
  := by
  have hwaits : ∀ u ∈ c.shared.noWorkSleepers, waits u := by
    intro u hu
    apply h.inWait u (PoolPlace.inWait_of_asleepInWait (h.asleepInWait u hu))
  intro hv
  cases hsignal with
  | one hu =>
    obtain ⟨hne, hvs⟩ := Finset.mem_erase.mp hv
    exact hne (hone _ _ (hwaits _ hvs) (hwaits _ hu))
  | nobody hnone =>
    rw [hnone] at hv
    exact Finset.notMem_empty v hv

section StepInv

variable (h : PoolInv worker waits c) (hstep : PoolStep waits t c.shared (c.place t) s' p')

include h hstep

theorem PoolInv.step_active :
  s'.activeThreads = total (fun p => p.isActive.toNat) (Function.update c.place t p')
  := by
  have hown := hstep.active (h.isActive_le t)
  have hsum := total_update (fun p : PoolPlace F A => p.isActive.toNat) c.place t p'
  rw [h.active] at hown
  omega

theorem PoolInv.step_alive :
  s'.aliveThreads = total (fun p => p.isAlive.toNat) (Function.update c.place t p')
  := by
  have hown := hstep.alive
  have hsum := total_update (fun p : PoolPlace F A => p.isAlive.toNat) c.place t p'
  rw [h.alive] at hown
  omega

theorem PoolInv.step_running :
  (s'.started : Multiset (ThreadWorkerJob F A))
    = s'.finished + total PoolPlace.running (Function.update c.place t p')
  := by
  have hown := hstep.running
  have hsum := total_update PoolPlace.running c.place t p'
  have hstarted : (s'.started : Multiset (ThreadWorkerJob F A)) + c.shared.finished
        + (c.place t).running
      = s'.finished + total PoolPlace.running (Function.update c.place t p') + c.shared.finished
        + (c.place t).running := by
    calc _ = (c.shared.finished + total PoolPlace.running c.place) + s'.finished + p'.running := by
          rw [hown, ← h.running]
      _ = s'.finished + c.shared.finished + (total PoolPlace.running c.place + p'.running) := by
          abel
      _ = _ := by
          rw [← hsum]
          abel
  exact add_right_cancel (add_right_cancel hstarted)

theorem PoolInv.step_waited (u : T) :
  (Function.update c.place t p' u).Waited s'
  := by
  obtain ⟨henqueued, hstarted, hfinished⟩ := hstep.history
  apply forall_update (fun _ q => PoolPlace.Waited s' q)
  · exact hstep.waited (h.waited t) h.fifo h.returned
  · intro u _
    exact (h.waited u).mono henqueued hstarted hfinished

theorem PoolInv.step_asleep :
  ∀ u ∈ s'.condSleepers, Function.update c.place t p' u = .semAsleep
  := by
  intro u hu
  rcases hstep.asleep (h.asleep t) hu with ⟨hus, hut⟩ | ⟨rfl, hp'⟩
  · rw [Function.update_of_ne hut]
    exact h.asleep u hus
  · rw [Function.update_self]
    exact hp'

theorem PoolInv.step_asleepInWait :
  ∀ u ∈ s'.noWorkSleepers, (Function.update c.place t p' u).asleepInWait = true
  := by
  intro u hu
  rcases hstep.asleepInWait (h.asleepInWait t) hu with ⟨hus, hut⟩ | ⟨rfl, hp'⟩
  · rw [Function.update_of_ne hut]
    exact h.asleepInWait u hus
  · rw [Function.update_self]
    exact hp'

theorem PoolInv.step_clears (u : T) :
  (Function.update c.place t p' u).clears = true → s'.val = 1
  := by
  apply forall_update (fun _ q => PoolPlace.clears q = true → s'.val = 1)
  · exact hstep.clears.1
  · intro u hut hu
    rcases hstep.clears.2 (h.clears u hu) with hval | ht
    · exact hval
    · exact absurd (h.semLk.unique (PoolPlace.hasSemLk_of_clears hu)
        (PoolPlace.hasSemLk_of_clears ht)) hut

theorem PoolInv.step_attends (hjobs : s'.jobs ≠ []) :
  s'.val = 1 ∨ ∃ u, (Function.update c.place t p' u).attends = true
  := by
  obtain ⟨hnew, hval, hold⟩ := hstep.attends
  rcases hnew hjobs with hjobs' | hself
  · rcases h.attends hjobs' with hset | hother
    · exact (hval hset).imp_right exists_update_self
    · rcases exists_update (t := t) (p := p') hother with hother | hself
      · exact .inr hother
      · rcases hold hself with hnone | hset | hself
        · exact absurd hnone hjobs
        · exact .inl hset
        · exact .inr (exists_update_self hself)
  · exact .inr (exists_update_self hself)

theorem PoolInv.step_wakesWorker (hworker : ∃ u, worker u = true) (hval : s'.val = 1) :
  (∃ u, (Function.update c.place t p' u).wakesWorker = true)
    ∨ ∃ u, worker u = true ∧ u ∉ s'.condSleepers
  := by
  obtain ⟨hset, hsignal⟩ := hstep.wakesWorker
  rcases hset hval with ⟨hval', hsub⟩ | hself
  · rcases h.wakesWorker hworker hval' with hother | ⟨w, hw, hawake⟩
    · rcases exists_update (t := t) (p := p') hother with hother | hself
      · exact .inl hother
      · right
        -- The thread wakes up one that sleeps, or nobody sleeps.
        have hcond := hsignal hself
        revert hcond
        generalize s'.condSleepers = sleepers
        rintro (hu | hnone)
        · rename_i u
          use u
          constructor
          · rw [← h.ofWorker u, h.asleep u hu]
            rfl
          · exact Finset.notMem_erase u _
        · obtain ⟨w, hw⟩ := hworker
          use w, hw
          rw [hnone]
          exact Finset.notMem_empty w
    · exact .inr ⟨w, hw, fun hs => hawake (hsub hs)⟩
  · exact .inl (exists_update_self hself)

/-- A thread that waits is not asleep while another gives the last signal. -/
theorem PoolInv.step_wakesWaiter (hone : ∀ t u, waits t → waits u → t = u)
    (hsleeps : s'.noWorkSleepers.Nonempty
      ∨ ∃ u, (Function.update c.place t p' u).dozes = true) :
  s'.jobs ≠ [] ∨ s'.activeThreads ≠ 0
    ∨ ∃ u, (Function.update c.place t p' u).wakesWaiter = true
  := by
  obtain ⟨hwork, hdozes, hfresh, hsignal⟩ := hstep.wakesWaiter (h.isActive_le t)
  -- A thread that sleeps afterwards sleeps before, or has just seen work.
  have hbefore : (s'.jobs ≠ [] ∨ s'.activeThreads ≠ 0)
      ∨ s'.noWorkSleepers.Nonempty ∨ ∃ u, u ≠ t ∧ (c.place u).dozes = true := by
    rcases hsleeps with hsleeps | ⟨u, hu⟩
    · exact .inr (.inl hsleeps)
    · by_cases hut : u = t
      · rw [hut, Function.update_self] at hu
        exact .inl (hdozes hu)
      · rw [Function.update_of_ne hut] at hu
        exact .inr (.inr ⟨u, hut, hu⟩)
  rcases hbefore with hwork' | hbefore
  · exact hwork'.imp_right .inl
  · have hblocked : c.shared.noWorkSleepers.Nonempty ∨ ∃ u, (c.place u).dozes = true := by
      rcases hbefore with hsleeps | ⟨u, -, hu⟩
      · exact (hfresh hsleeps).imp_right fun ht => ⟨t, ht⟩
      · exact .inr ⟨u, hu⟩
    rcases or_assoc.mpr (h.wakesWaiter hone hblocked) with hthere | hother
    · exact (hwork hthere).imp_right (Or.imp_right exists_update_self)
    · rcases exists_update (t := t) (p := p') hother with hother | hself
      · exact .inr (.inr hother)
      · exfalso
        rcases hbefore with ⟨v, hv⟩ | ⟨u, hut, hu⟩
        · exact h.nobody_left hone (hsignal hself) hv
        · exact hut (h.lock.unique (PoolPlace.hasLock_of_dozes hu)
            (PoolPlace.hasLock_of_wakesWaiter hself))

end StepInv

/-- A step keeps the invariant. -/
theorem PoolInv.step (h : PoolInv worker waits c) (hstep : Step (PoolStep waits) c c') :
  PoolInv worker waits c'
  := by
  cases hstep with
  | of hstep =>
    exact {
      lock := h.lock.handles hstep.lock
      qlock := h.qlock.handles hstep.qlock
      semLk := h.semLk.handles hstep.semLk
      active := h.step_active hstep
      alive := h.step_alive hstep
      ofWorker := forall_update (fun u q => PoolPlace.ofWorker q = worker u)
        (hstep.ofWorker.trans (h.ofWorker _)) fun u _ => h.ofWorker u
      fifo := hstep.fifo h.fifo
      running := h.step_running hstep
      waited := h.step_waited hstep
      asleep := h.step_asleep hstep
      asleepInWait := h.step_asleepInWait hstep
      inWait := forall_update (fun u q => PoolPlace.inWait q = true → waits u)
        (hstep.inWait (h.inWait _)) fun u _ => h.inWait u
      clears := h.step_clears hstep
      attends := h.step_attends hstep
      wakesWorker := h.step_wakesWorker hstep
      wakesWaiter := h.step_wakesWaiter hstep }

omit [DecidableEq T] in
/-- The invariant holds of a new pool. -/
theorem poolInv_threadPoolNew (worker : T → Bool) (waits : T → Prop) :
  PoolInv worker waits (threadPoolNew worker : Threads T (ThreadPool T F A) (PoolPlace F A))
  := by
  have hplace : ∀ t, (threadPoolNew worker : Threads T (ThreadPool T F A) (PoolPlace F A)).place t
      = if worker t then .startLock else .idle := fun _ => rfl
  have hnone : ∀ q : PoolPlace F A → Bool, q .startLock = false → q .idle = false →
      ∀ t, q ((threadPoolNew worker : Threads T (ThreadPool T F A) (PoolPlace F A)).place t)
        = false := by
    intro q hstart hidle t
    rw [hplace]
    split <;> assumption
  have hheld : ∀ q : PoolPlace F A → Bool, q .startLock = false → q .idle = false →
      Held q none (threadPoolNew worker : Threads T (ThreadPool T F A) (PoolPlace F A)).place := by
    intro q hstart hidle t
    rw [hnone q hstart hidle t]
    simp only [Bool.false_eq_true, reduceCtorEq]
  have htotal : ∀ q : PoolPlace F A → Bool, q .startLock = false → q .idle = false →
      total (fun p => (q p).toNat)
        (threadPoolNew worker : Threads T (ThreadPool T F A) (PoolPlace F A)).place = 0 := by
    intro q hstart hidle
    apply Finset.sum_eq_zero
    intro t _
    exact congrArg Bool.toNat (hnone q hstart hidle t)
  have hrunning : total PoolPlace.running
      (threadPoolNew worker : Threads T (ThreadPool T F A) (PoolPlace F A)).place = 0 := by
    apply Finset.sum_eq_zero
    intro t _
    rw [hplace]
    split <;> rfl
  exact {
    lock := hheld _ rfl rfl
    qlock := hheld _ rfl rfl
    semLk := hheld _ rfl rfl
    active := (htotal _ rfl rfl).symm
    alive := (htotal _ rfl rfl).symm
    ofWorker := by
      intro t
      rw [hplace]
      split
      case isTrue hw => exact hw.symm
      case isFalse hw => exact (Bool.eq_false_of_not_eq_true hw).symm
    fifo := rfl
    running := by
      rw [hrunning]
      rfl
    waited := by
      intro t
      rw [hplace]
      split <;> trivial
    asleep := fun t ht => absurd ht (Finset.notMem_empty t)
    asleepInWait := fun t ht => absurd ht (Finset.notMem_empty t)
    inWait := by
      intro t ht
      rw [hnone PoolPlace.inWait rfl rfl t] at ht
      cases ht
    clears := by
      intro t ht
      rw [hnone PoolPlace.clears rfl rfl t] at ht
      cases ht
    attends := fun hjobs => absurd rfl hjobs
    wakesWorker := fun _ hval => absurd hval Nat.zero_ne_one
    wakesWaiter := by
      intro _ hsleeps
      rcases hsleeps with hsleeps | ⟨t, ht⟩
      · exact absurd hsleeps Finset.not_nonempty_empty
      · rw [hnone PoolPlace.dozes rfl rfl t] at ht
        cases ht }

/-- The invariant holds of every state that a pool gets into. -/
theorem PoolReachable.inv (h : PoolReachable worker waits c) :
  PoolInv worker waits c
  := by
  apply invariant_of_steps (fun _ _ => PoolInv.step) _ h
  apply poolInv_threadPoolNew

end Reachable

end Polyc
