import Polyc.HolycLib.ThreadPoolRuns

/-!
# The thread pool does its work

Every job that is enqueued is run once, in turn.  `ThreadPoolWait` returns after the jobs that it
waits for.  No wake-up is lost: a pool that is left alone comes to rest, and then all jobs have
returned.  With a second thread that waits this would not be so, since `no_work` is signalled to
one thread only.
-/

namespace Polyc

open Interleaving

variable {T F A : Type} [DecidableEq T]

variable {waits : T → Prop} {t : T} {s s' : ThreadPool T F A} {p p' : PoolPlace F A}

/-! ### Progress -/

/-- The most steps that a thread makes from a place on without anything from outside, when the
steps that it makes possible for others are counted in. -/
def PoolPlace.rank : PoolPlace F A → Nat
  | idle => 0
  | enqueueLock _ _ => 64
  | enqueueAppend _ _ => 63
  | enqueueUnlock _ => 12
  | signalLock _ => 37
  | signalSet _ => 36
  | signalCond _ => 16
  | signalUnlock _ => 13
  | waitLock _ => 4
  | waitJobs _ => 3
  | waitActive _ => 2
  | waitSleep _ => 1
  | waitAsleep _ => 4
  | waitUnlock _ => 1
  | startLock => 5
  | startCount => 4
  | startUnlock => 3
  | semLock => 2
  | semTest => 1
  | semAsleep => 2
  | semClear => 0
  | semUnlock => 18
  | activeLock => 17
  | activeCount => 16
  | activeUnlock => 15
  | dequeueLock => 14
  | dequeueTake => 13
  | dequeueUnlock _ => 12
  | calling _ => 11
  | doneLock => 10
  | doneCount => 9
  | doneSignal => 8
  | doneUnlock => 3

section Progress

variable [Fintype T] {worker : T → Bool}
  {c c' : Threads T (ThreadPool T F A) (PoolPlace F A)}

/-- What the shared state makes possible: a job keeps a worker busy and sets the semaphore, the
semaphore lets a worker through, and a thread that has been woken up looks again. -/
def ThreadPool.rank (s : ThreadPool T F A) : Nat :=
  25 * s.jobs.length + 19 * (if s.val = 1 then 1 else 0) + 2 * s.condSleepersᶜ.card
    + 4 * s.noWorkSleepersᶜ.card

/-- The steps that are left. -/
def poolRank (c : Threads T (ThreadPool T F A) (PoolPlace F A)) : Nat :=
  c.shared.rank + total PoolPlace.rank c.place

/-- A signal wakes up one thread at most. -/
theorem CondSignal.card_compl {sleepers sleepers' : Finset T} (h : CondSignal sleepers sleepers') :
  sleepers'ᶜ.card ≤ sleepersᶜ.card + 1
  := by
  cases h with
  | one hu =>
    rw [Finset.compl_erase]
    exact Finset.card_insert_le ..
  | nobody => exact Nat.le_succ _

/-- A thread that falls asleep is one less that is awake. -/
theorem card_compl_insert {sleepers : Finset T} (ht : t ∉ sleepers) :
  (insert t sleepers)ᶜ.card + 1 = sleepersᶜ.card
  := by
  rw [Finset.compl_insert]
  apply Finset.card_erase_add_one (Finset.mem_compl.mpr ht)

/-- A statement takes something away from what is left. -/
theorem PoolNext.rank
    (h : PoolNext t s p s' p') (hval : p.clears = true → s.val = 1)
    (hcond : t ∈ s.condSleepers → p = .semAsleep)
    (hnoWork : t ∈ s.noWorkSleepers → p.asleepInWait = true) :
  s'.rank + p'.rank < s.rank + p.rank
  := by
  cases h
  case enqueueAppend =>
    simp only [ThreadPool.rank, PoolPlace.rank, List.length_append, List.length_singleton]
    omega
  case enqueueUnlock c =>
    cases c
    all_goals
      simp only [EnqueueCaller.back, ThreadPool.rank, PoolPlace.rank]
      omega
  case signalUnlock g =>
    cases g
    all_goals
      simp only [SignalCaller.back, ThreadPool.rank, PoolPlace.rank]
      omega
  case signalSet =>
    simp only [ThreadPool.rank, PoolPlace.rank, if_true]
    split <;> omega
  case signalCond hsignal | doneSignal hsignal =>
    have hcard := hsignal.card_compl
    simp only [ThreadPool.rank, PoolPlace.rank]
    omega
  case waitSleep =>
    have hcard := card_compl_insert fun ht => Bool.noConfusion (hnoWork ht)
    simp only [ThreadPool.rank, PoolPlace.rank]
    omega
  case semSleep =>
    have hcard := card_compl_insert fun ht => nomatch hcond ht
    simp only [ThreadPool.rank, PoolPlace.rank]
    omega
  case semClear =>
    simp only [ThreadPool.rank, PoolPlace.rank, hval rfl, if_true, Nat.zero_ne_one, if_false]
    omega
  case dequeueTake hjobs =>
    simp only [ThreadPool.rank, PoolPlace.rank, hjobs, List.length_cons]
    omega
  all_goals
    simp only [ThreadPool.rank, PoolPlace.rank]
    omega

/-- A step of the pool takes something away from what is left. -/
theorem PoolInv.rank_lt
    (h : PoolInv worker waits c) (hstep : Step PoolNext c c') :
  PoolInv worker waits c' ∧ poolRank c' < poolRank c
  := by
  use h.step (hstep.mono fun _ _ _ _ _ => .inl)
  cases hstep with
  | @of t s p hnext =>
    have hown := hnext.rank (h.clears t) (h.asleep t) (h.asleepInWait t)
    have hsum := total_update PoolPlace.rank c.place t p
    unfold poolRank
    dsimp only
    omega

omit [Fintype T] in
/-- A thread with the lock of the semaphore goes on. -/
theorem PoolPlace.next_of_hasSemLk (t : T) (s : ThreadPool T F A) (h : p.hasSemLk = true) :
  ∃ s' p', PoolNext t s p s' p'
  := by
  cases p
  case signalCond =>
    by_cases hnone : s.condSleepers = ∅
    · exact ⟨_, _, .signalCond (.nobody hnone)⟩
    · obtain ⟨u, hu⟩ := Finset.nonempty_iff_ne_empty.mpr hnone
      exact ⟨_, _, .signalCond (.one hu)⟩
  case semTest =>
    by_cases hval : s.val = 1
    · exact ⟨_, _, .semTest hval⟩
    · exact ⟨_, _, .semSleep hval⟩
  case signalSet => exact ⟨_, _, .signalSet⟩
  case signalUnlock => exact ⟨_, _, .signalUnlock⟩
  case semClear => exact ⟨_, _, .semClear⟩
  case semUnlock => exact ⟨_, _, .semUnlock⟩
  all_goals cases h

omit [Fintype T] in
/-- A thread with `qlock` goes on when the lock of the semaphore is free. -/
theorem PoolPlace.next_of_hasQlock
    (t : T) (s : ThreadPool T F A) (h : p.hasQlock = true) (hsem : s.semLk = none) :
  ∃ s' p', PoolNext t s p s' p'
  := by
  cases p
  case enqueueAppend => exact ⟨_, _, .enqueueAppend⟩
  case enqueueUnlock => exact ⟨_, _, .enqueueUnlock⟩
  case signalLock => exact ⟨_, _, .signalLock hsem⟩
  case signalSet | signalCond | signalUnlock => exact next_of_hasSemLk t s rfl
  case dequeueTake =>
    cases hjobs : s.jobs with
    | nil => exact ⟨_, _, .dequeueNothing hjobs⟩
    | cons => exact ⟨_, _, .dequeueTake hjobs⟩
  case dequeueUnlock j =>
    cases j with
    | none => exact ⟨_, _, .dequeueUnlockNothing⟩
    | some => exact ⟨_, _, .dequeueUnlock⟩
  all_goals cases h

omit [Fintype T] in
/-- A thread with `lock` goes on. -/
theorem PoolPlace.next_of_hasLock (t : T) (s : ThreadPool T F A) (h : p.hasLock = true) :
  ∃ s' p', PoolNext t s p s' p'
  := by
  cases p
  case waitJobs =>
    by_cases hjobs : s.jobs = []
    · exact ⟨_, _, .waitNoJobs hjobs⟩
    · exact ⟨_, _, .waitJobs hjobs⟩
  case waitActive =>
    by_cases hactive : s.activeThreads = 0
    · exact ⟨_, _, .waitNoActive hactive⟩
    · exact ⟨_, _, .waitActive hactive⟩
  case waitSleep => exact ⟨_, _, .waitSleep⟩
  case waitUnlock => exact ⟨_, _, .waitUnlock⟩
  case startCount => exact ⟨_, _, .startCount⟩
  case startUnlock => exact ⟨_, _, .startUnlock⟩
  case activeCount => exact ⟨_, _, .activeCount⟩
  case activeUnlock => exact ⟨_, _, .activeUnlock⟩
  case doneCount =>
    by_cases hactive : s.activeThreads - 1 = 0
    · exact ⟨_, _, .doneCountLast hactive⟩
    · exact ⟨_, _, .doneCount hactive⟩
  case doneSignal =>
    by_cases hnone : s.noWorkSleepers = ∅
    · exact ⟨_, _, .doneSignal (.nobody hnone)⟩
    · obtain ⟨u, hu⟩ := Finset.nonempty_iff_ne_empty.mpr hnone
      exact ⟨_, _, .doneSignal (.one hu)⟩
  case doneUnlock => exact ⟨_, _, .doneUnlock⟩
  all_goals cases h

omit [Fintype T] in
/-- When all mutexes are free, a thread goes on unless it is outside or asleep. -/
theorem PoolPlace.next_of_free
    (t : T) (s : ThreadPool T F A) (p : PoolPlace F A) (hlock : s.lock = none)
    (hqlock : s.qlock = none) (hsem : s.semLk = none) :
  (∃ s' p', PoolNext t s p s' p') ∨ p = .idle ∨ p = .semAsleep ∧ t ∈ s.condSleepers
    ∨ p.asleepInWait = true ∧ t ∈ s.noWorkSleepers
  := by
  cases p
  case idle => exact .inr (.inl rfl)
  case enqueueLock => exact .inl ⟨_, _, .enqueueLock hqlock⟩
  case enqueueAppend | enqueueUnlock | signalLock | signalSet | signalCond | signalUnlock
      | dequeueTake | dequeueUnlock =>
    exact .inl (next_of_hasQlock t s rfl hsem)
  case waitJobs | waitActive | waitSleep | waitUnlock | startCount | startUnlock | activeCount
      | activeUnlock | doneCount | doneSignal | doneUnlock =>
    exact .inl (next_of_hasLock t s rfl)
  case semTest | semClear | semUnlock => exact .inl (next_of_hasSemLk t s rfl)
  case waitLock => exact .inl ⟨_, _, .waitLock hlock⟩
  case startLock => exact .inl ⟨_, _, .startLock hlock⟩
  case activeLock => exact .inl ⟨_, _, .activeLock hlock⟩
  case doneLock => exact .inl ⟨_, _, .doneLock hlock⟩
  case semLock => exact .inl ⟨_, _, .semLock hsem⟩
  case dequeueLock => exact .inl ⟨_, _, .dequeueLock hqlock⟩
  case calling => exact .inl ⟨_, _, .calling⟩
  case waitAsleep =>
    by_cases ht : t ∈ s.noWorkSleepers
    · exact .inr (.inr (.inr ⟨rfl, ht⟩))
    · exact .inl ⟨_, _, .waitWoken ht hlock⟩
  case semAsleep =>
    by_cases ht : t ∈ s.condSleepers
    · exact .inr (.inr (.inl ⟨rfl, ht⟩))
    · exact .inl ⟨_, _, .semWoken ht hsem⟩

omit [DecidableEq T] [Fintype T] in
theorem PoolPlace.eq_of_asleepInWait (h : p.asleepInWait = true) :
  ∃ n, p = .waitAsleep n
  := by
  cases p
  case waitAsleep n => exact ⟨n, rfl⟩
  all_goals cases h

/-- All work is done: every job that was enqueued has returned, the workers have come up and
sleep, and nobody waits. -/
structure PoolSettled (worker : T → Bool) (c : Threads T (ThreadPool T F A) (PoolPlace F A)) :
    Prop where
  jobs : c.shared.jobs = []
  finished : c.shared.finished = c.shared.enqueued
  alive : c.shared.aliveThreads = Fintype.card { t // worker t = true }
  place : ∀ t, c.place t = if worker t then .semAsleep else .idle

/-- A pool that cannot go on has done its work. -/
theorem PoolInv.settled
    (h : PoolInv worker waits c) (hworker : ∃ t, worker t = true)
    (hone : ∀ t u, waits t → waits u → t = u) (hstuck : ∀ c', ¬ Step PoolNext c c') :
  PoolSettled worker c
  := by
  have hnext : ∀ t, ¬ ∃ s p, PoolNext t c.shared (c.place t) s p := by
    rintro t ⟨s, p, hnext⟩
    exact hstuck _ (.of hnext)
  have hsem : c.shared.semLk = none := by
    apply h.semLk.free
    intro t
    rw [← Bool.not_eq_true]
    exact fun ht => hnext t (PoolPlace.next_of_hasSemLk t c.shared ht)
  have hqlock : c.shared.qlock = none := by
    apply h.qlock.free
    intro t
    rw [← Bool.not_eq_true]
    exact fun ht => hnext t (PoolPlace.next_of_hasQlock t c.shared ht hsem)
  have hlock : c.shared.lock = none := by
    apply h.lock.free
    intro t
    rw [← Bool.not_eq_true]
    exact fun ht => hnext t (PoolPlace.next_of_hasLock t c.shared ht)
  have hrest : ∀ t, c.place t = .idle ∨ c.place t = .semAsleep ∧ t ∈ c.shared.condSleepers
      ∨ (c.place t).asleepInWait = true ∧ t ∈ c.shared.noWorkSleepers := by
    intro t
    rcases PoolPlace.next_of_free t c.shared (c.place t) hlock hqlock hsem with hgo | hrest
    · exact absurd hgo (hnext t)
    · exact hrest
  have hquiet : ∀ q : PoolPlace F A → Bool, q .idle = false → q .semAsleep = false →
      (∀ n, q (.waitAsleep n) = false) → ∀ t, q (c.place t) = false := by
    intro q hidle hsleep hwait t
    rcases hrest t with ht | ⟨ht, -⟩ | ⟨ht, -⟩
    · rw [ht, hidle]
    · rw [ht, hsleep]
    · obtain ⟨n, hn⟩ := PoolPlace.eq_of_asleepInWait ht
      rw [hn, hwait]
  have hactive : c.shared.activeThreads = 0 := by
    rw [h.active]
    apply Finset.sum_eq_zero
    intro t _
    exact congrArg Bool.toNat (hquiet PoolPlace.isActive rfl rfl (fun _ => rfl) t)
  have hasleep : ∀ t, worker t = true → c.place t = .semAsleep ∧ t ∈ c.shared.condSleepers := by
    intro t hw
    have hrole := h.ofWorker t
    rcases hrest t with ht | ht | ⟨ht, -⟩
    · rw [ht, hw] at hrole
      cases hrole
    · exact ht
    · obtain ⟨n, hn⟩ := PoolPlace.eq_of_asleepInWait ht
      rw [hn, hw] at hrole
      cases hrole
  have hval : c.shared.val ≠ 1 := by
    intro hval
    rcases h.wakesWorker hworker hval with ⟨t, ht⟩ | ⟨t, hw, hawake⟩
    · rw [hquiet PoolPlace.wakesWorker rfl rfl (fun _ => rfl) t] at ht
      cases ht
    · exact hawake (hasleep t hw).2
  have hjobs : c.shared.jobs = [] := by
    by_contra hjobs
    rcases h.attends hjobs with hset | ⟨t, ht⟩
    · exact hval hset
    · rw [hquiet PoolPlace.attends rfl rfl (fun _ => rfl) t] at ht
      cases ht
  have hnobody : ∀ t, t ∉ c.shared.noWorkSleepers := by
    intro t ht
    rcases h.wakesWaiter hone (.inl ⟨t, ht⟩) with hwork | hwork | ⟨u, hu⟩
    · exact hwork hjobs
    · exact hwork hactive
    · rw [hquiet PoolPlace.wakesWaiter rfl rfl (fun _ => rfl) u] at hu
      cases hu
  have hplace : ∀ t, c.place t = if worker t then .semAsleep else .idle := by
    intro t
    have hrole := h.ofWorker t
    rcases hrest t with ht | ⟨ht, -⟩ | ⟨-, ht⟩
    · rw [ht] at hrole
      rw [ht, ← hrole]
      rfl
    · rw [ht] at hrole
      rw [ht, ← hrole]
      rfl
    · exact absurd ht (hnobody t)
  constructor
  · exact hjobs
  · have hfifo := h.fifo
    rw [hjobs, List.append_nil] at hfifo
    rw [hfifo, ← h.returned hactive]
  · rw [h.alive, total, Fintype.card_subtype, Finset.card_filter]
    apply Finset.sum_congr rfl
    intro t _
    rw [hplace t]
    split <;> rfl
  · exact hplace

end Progress

/-! ### The pool -/

/-- During a call of `ThreadPoolWait`. -/
def StepInWait (waits : T → Prop) (t : T) (c c' : Threads T (ThreadPool T F A) (PoolPlace F A)) :
    Prop :=
  Step (PoolStep waits) c c' ∧ (c'.place t).inWait = true

/-- The worker `true` has not started, and the thread `false` outside waits for the job that it
has enqueued. -/
def waitingPool : Threads Bool (ThreadPool Bool String Nat) (PoolPlace String Nat) where
  shared := { val := 1, jobs := [⟨"Print", 7⟩], enqueued := [⟨"Print", 7⟩] }
  place t := if t then .startLock else .waitLock 1

theorem poolReachable_waitingPool :
  PoolReachable id (· = false) waitingPool
  := by
  have h : PoolReachable id (· = false)
      (threadPoolNew id : Threads Bool (ThreadPool Bool String Nat) (PoolPlace String Nat)) := .refl
  have h := h.tail (.of (t := false) (.inr (.enqueue ⟨"Print", 7⟩)))
  have h := h.tail (.of (t := false) (.inl (.enqueueLock rfl)))
  have h := h.tail (.of (t := false) (.inl .enqueueAppend))
  have h := h.tail (.of (t := false) (.inl (.signalLock rfl)))
  have h := h.tail (.of (t := false) (.inl .signalSet))
  have h := h.tail (.of (t := false) (.inl (.signalCond (.nobody rfl))))
  have h := h.tail (.of (t := false) (.inl .signalUnlock))
  have h := h.tail (.of (t := false) (.inl .enqueueUnlock))
  have h := h.tail (.of (t := false) (.inr (.wait rfl)))
  have hlast : ∀ place, place = waitingPool.place →
      PoolReachable id (· = false) ⟨waitingPool.shared, place⟩ →
      PoolReachable id (· = false) waitingPool := by
    rintro _ rfl h
    exact h
  apply hlast _ _ h
  funext t
  cases t <;> rfl

theorem stepsInWait_waitingPool :
  ∃ c, Relation.ReflTransGen (StepInWait (· = false) false) waitingPool c
    ∧ c.place false = .waitUnlock 1
  := by
  -- The worker takes the job and comes back before the thread outside looks.
  have hrun : Relation.ReflTransGen (StepInWait (· = false) false) waitingPool waitingPool := .refl
  have hrun := hrun.tail ⟨.of (t := true) (.inl (.startLock rfl)), rfl⟩
  have hrun := hrun.tail ⟨.of (t := true) (.inl .startCount), rfl⟩
  have hrun := hrun.tail ⟨.of (t := true) (.inl .startUnlock), rfl⟩
  have hrun := hrun.tail ⟨.of (t := true) (.inl (.semLock rfl)), rfl⟩
  have hrun := hrun.tail ⟨.of (t := true) (.inl (.semTest rfl)), rfl⟩
  have hrun := hrun.tail ⟨.of (t := true) (.inl .semClear), rfl⟩
  have hrun := hrun.tail ⟨.of (t := true) (.inl .semUnlock), rfl⟩
  have hrun := hrun.tail ⟨.of (t := true) (.inl (.activeLock rfl)), rfl⟩
  have hrun := hrun.tail ⟨.of (t := true) (.inl .activeCount), rfl⟩
  have hrun := hrun.tail ⟨.of (t := true) (.inl .activeUnlock), rfl⟩
  have hrun := hrun.tail ⟨.of (t := true) (.inl (.dequeueLock rfl)), rfl⟩
  have hrun := hrun.tail ⟨.of (t := true) (.inl (.dequeueTake rfl)), rfl⟩
  have hrun := hrun.tail ⟨.of (t := true) (.inl (.signalLock rfl)), rfl⟩
  have hrun := hrun.tail ⟨.of (t := true) (.inl .signalSet), rfl⟩
  have hrun := hrun.tail ⟨.of (t := true) (.inl (.signalCond (.nobody rfl))), rfl⟩
  have hrun := hrun.tail ⟨.of (t := true) (.inl .signalUnlock), rfl⟩
  have hrun := hrun.tail ⟨.of (t := true) (.inl .dequeueUnlock), rfl⟩
  have hrun := hrun.tail ⟨.of (t := true) (.inl .calling), rfl⟩
  have hrun := hrun.tail ⟨.of (t := true) (.inl (.doneLock rfl)), rfl⟩
  have hrun := hrun.tail ⟨.of (t := true) (.inl (.doneCountLast rfl)), rfl⟩
  have hrun := hrun.tail ⟨.of (t := true) (.inl (.doneSignal (.nobody rfl))), rfl⟩
  have hrun := hrun.tail ⟨.of (t := true) (.inl .doneUnlock), rfl⟩
  have hrun := hrun.tail ⟨.of (t := false) (.inl (.waitLock rfl)), rfl⟩
  have hrun := hrun.tail ⟨.of (t := false) (.inl (.waitNoJobs rfl)), rfl⟩
  have hrun := hrun.tail ⟨.of (t := false) (.inl (.waitNoActive rfl)), rfl⟩
  exact ⟨_, hrun, rfl⟩

section Pool

variable [Fintype T] {worker : T → Bool}
  {c : Threads T (ThreadPool T F A) (PoolPlace F A)}

/-- Jobs are taken in the order in which they were enqueued, none is lost and none is taken
twice: every job that was taken has returned or is run by the one thread that has taken it. -/
theorem threadPool_fifo (h : PoolReachable worker waits c) :
  c.shared.enqueued = c.shared.started ++ c.shared.jobs
    ∧ (c.shared.started : Multiset (ThreadWorkerJob F A))
      = c.shared.finished + total PoolPlace.running c.place
  := ⟨h.inv.fifo, h.inv.running⟩

theorem threadPool_fifo_waiting :
  waitingPool.shared.enqueued = waitingPool.shared.started ++ waitingPool.shared.jobs
    ∧ (waitingPool.shared.started : Multiset (ThreadWorkerJob String Nat))
      = waitingPool.shared.finished + total PoolPlace.running waitingPool.place
  := threadPool_fifo poolReachable_waitingPool

omit [Fintype T] in
/-- A call of `ThreadPoolWait` remembers the jobs that had been enqueued. -/
theorem since_of_stepsInWait
    (hwait : (c.place t).inWait = true)
    {c' : Threads T (ThreadPool T F A) (PoolPlace F A)}
    (hrun : Relation.ReflTransGen (StepInWait waits t) c c') :
  (c'.place t).inWait = true ∧ (c'.place t).since = (c.place t).since
    ∧ c.shared.enqueued <+: c'.shared.enqueued
    ∧ Relation.ReflTransGen (Step (PoolStep waits)) c c'
  := by
  induction hrun with
  | refl => exact ⟨hwait, rfl, List.prefix_rfl, .refl⟩
  | tail _ hlast ih =>
    obtain ⟨hin, hsince, hprefix, hsteps⟩ := ih
    obtain ⟨hstep, hin'⟩ := hlast
    refine ⟨hin', ?_, ?_, hsteps.tail hstep⟩
    · rw [← hsince]
      cases hstep with
      | @of u s p hnext =>
        dsimp only at hin' ⊢
        by_cases hut : t = u
        · subst hut
          rw [Function.update_self] at hin' ⊢
          exact hnext.since hin hin'
        · rw [Function.update_of_ne hut]
    · cases hstep with
      | of hnext => exact hprefix.trans hnext.history.1

/-- When `ThreadPoolWait` returns, all jobs that had been enqueued when it was called have
returned. -/
theorem threadPoolWait_returned
    (h : PoolReachable worker waits c) (hcall : c.place t = .waitLock c.shared.enqueued.length)
    {c' : Threads T (ThreadPool T F A) (PoolPlace F A)}
    (hrun : Relation.ReflTransGen (StepInWait waits t) c c') {n : Nat}
    (hreturn : c'.place t = .waitUnlock n) :
  (c.shared.enqueued : Multiset (ThreadWorkerJob F A)) ≤ c'.shared.finished
  := by
  have hwait : (c.place t).inWait = true := by
    rw [hcall]
    rfl
  obtain ⟨-, hsince, ⟨l, hl⟩, hsteps⟩ := since_of_stepsInWait hwait hrun
  rw [hcall, hreturn] at hsince
  have hwaited := PoolInv.waited (PoolReachable.inv (h.trans hsteps)) t
  have hn : n = c.shared.enqueued.length := hsince
  rw [hreturn, hn] at hwaited
  have htake := hwaited.2
  rwa [← hl, List.take_left] at htake

/-- The thread outside comes back when `Print` has returned. -/
theorem threadPoolWait_returned_waiting :
  ∃ c : Threads Bool (ThreadPool Bool String Nat) (PoolPlace String Nat),
    c.place false = .waitUnlock 1 ∧ {⟨"Print", 7⟩} ≤ c.shared.finished
  := by
  obtain ⟨c, hrun, hreturn⟩ := stepsInWait_waitingPool
  use c, hreturn
  apply threadPoolWait_returned poolReachable_waitingPool rfl hrun hreturn

/-- No wake-up is lost: from every state the pool comes to rest by itself, and then every job that
was enqueued has returned, and the thread that waits has returned too. -/
theorem threadPool_settles
    (hworker : ∃ t, worker t = true) (hone : ∀ t u, waits t → waits u → t = u)
    (h : PoolReachable worker waits c) :
  (∃ bound, ∀ n c', Steps PoolNext n c c' → n ≤ bound)
    ∧ ∀ n c', Steps PoolNext n c c' → (∀ c'', ¬ Step PoolNext c' c'') → PoolSettled worker c'
  := by
  have hsteps : ∀ n c', Steps PoolNext n c c' →
      PoolInv worker waits c' ∧ n + poolRank c' ≤ poolRank c := by
    intro n c'
    exact Steps.le_measure (fun _ _ => PoolInv.rank_lt) h.inv
  constructor
  · use poolRank c
    intro n c' hrun
    exact Nat.le_of_add_right_le (hsteps n c' hrun).2
  · intro n c' hrun hstuck
    exact (hsteps n c' hrun).1.settled hworker hone hstuck

theorem threadPool_settles_waiting :
  (∃ bound, ∀ n c', Steps PoolNext n waitingPool c' → n ≤ bound)
    ∧ ∀ n c', Steps PoolNext n waitingPool c' → (∀ c'', ¬ Step PoolNext c' c'') →
      PoolSettled id c'
  := by
  apply threadPool_settles ⟨true, rfl⟩ _ poolReachable_waitingPool
  rintro t u rfl rfl
  rfl

end Pool

end Polyc
