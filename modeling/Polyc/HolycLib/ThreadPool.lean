import Polyc.Lib.Interleaving

/-!
# The thread pool of `threads.HC`

Workers take jobs from the list `jobs` while other threads enqueue them and wait for them.  A
step is one statement of one thread on the shared state; the threads are interleaved in any
order.  `pthread_cond_wait` gives the mutex back and falls asleep at once, and may wake up
without a signal.  The list is changed under `qlock`; whether it is empty is also read without.
The pool runs: `run` is `TRUE`.
-/

namespace Polyc

open Interleaving

/-- `ThreadWorkerJob`. -/
structure ThreadWorkerJob (F A : Type) where
  callback : F
  argv : A
  deriving DecidableEq

/-- Who calls `ThreadPoolEnqueue`: a thread outside of the pool, or the callback of a job. -/
inductive EnqueueCaller (F A : Type) where
  | client
  | job (j : ThreadWorkerJob F A)
  deriving DecidableEq

/-- Who calls `ThreadSemaphoreSignal`. -/
inductive SignalCaller (F A : Type) where
  | enqueue (c : EnqueueCaller F A)
  | dequeue (j : ThreadWorkerJob F A)
  deriving DecidableEq

/-- The statement that a thread is at.  In `ThreadPoolWait` it remembers how many jobs had been
enqueued when it was called. -/
inductive PoolPlace (F A : Type) where
  /-- Not in a function of the pool. -/
  | idle
  -- `ThreadPoolEnqueue`
  | enqueueLock (c : EnqueueCaller F A) (j : ThreadWorkerJob F A)
  | enqueueAppend (c : EnqueueCaller F A) (j : ThreadWorkerJob F A)
  | enqueueUnlock (c : EnqueueCaller F A)
  -- `ThreadSemaphoreSignal`
  | signalLock (g : SignalCaller F A)
  | signalSet (g : SignalCaller F A)
  | signalCond (g : SignalCaller F A)
  | signalUnlock (g : SignalCaller F A)
  -- `ThreadPoolWait`
  | waitLock (n : Nat)
  | waitJobs (n : Nat)
  | waitActive (n : Nat)
  | waitSleep (n : Nat)
  | waitAsleep (n : Nat)
  | waitUnlock (n : Nat)
  -- `ThreadPoolMain`, up to its loop
  | startLock
  | startCount
  | startUnlock
  -- `ThreadSemaphoreWait`
  | semLock
  | semTest
  | semAsleep
  | semClear
  | semUnlock
  -- the loop of `ThreadPoolMain`, with `ThreadPoolDequeue`
  | activeLock
  | activeCount
  | activeUnlock
  | dequeueLock
  | dequeueTake
  | dequeueUnlock (j : Option (ThreadWorkerJob F A))
  | calling (j : ThreadWorkerJob F A)
  | doneLock
  | doneCount
  | doneSignal
  | doneUnlock
  deriving DecidableEq

/-- `ThreadPool` with its semaphore: the threads that hold the mutexes, the counters, the jobs
and the threads that sleep on `sem->cond` and `no_work` and have not been woken up; and the
history of the jobs that were enqueued, were taken from the list, and have returned. -/
structure ThreadPool (T F A : Type) where
  lock : Option T := none
  qlock : Option T := none
  semLk : Option T := none
  val : Nat := 0
  aliveThreads : Nat := 0
  activeThreads : Nat := 0
  jobs : List (ThreadWorkerJob F A) := []
  condSleepers : Finset T := ∅
  noWorkSleepers : Finset T := ∅
  enqueued : List (ThreadWorkerJob F A) := []
  started : List (ThreadWorkerJob F A) := []
  finished : Multiset (ThreadWorkerJob F A) := 0

/-- Where `ThreadPoolEnqueue` returns to. -/
def EnqueueCaller.back {F A : Type} : EnqueueCaller F A → PoolPlace F A
  | .client => .idle
  | .job j => .calling j

/-- Where `ThreadSemaphoreSignal` returns to. -/
def SignalCaller.back {F A : Type} : SignalCaller F A → PoolPlace F A
  | .enqueue c => .enqueueUnlock c
  | .dequeue j => .dequeueUnlock (some j)

variable {T F A : Type} [DecidableEq T]

/-- `pthread_cond_signal`: one of the threads that sleep wakes up, when there are any. -/
inductive CondSignal : Finset T → Finset T → Prop
  | one {sleepers : Finset T} {u : T} (h : u ∈ sleepers) : CondSignal sleepers (sleepers.erase u)
  | nobody {sleepers : Finset T} (h : sleepers = ∅) : CondSignal sleepers sleepers

/-- A thread executes its next statement. -/
inductive PoolNext (t : T) (s : ThreadPool T F A) :
    PoolPlace F A → ThreadPool T F A → PoolPlace F A → Prop
  | enqueueLock {c j} (h : s.qlock = none) :
    PoolNext t s (.enqueueLock c j) { s with qlock := some t } (.enqueueAppend c j)
  | enqueueAppend {c j} :
    PoolNext t s (.enqueueAppend c j)
      { s with jobs := s.jobs ++ [j], enqueued := s.enqueued ++ [j] } (.signalLock (.enqueue c))
  | enqueueUnlock {c} :
    PoolNext t s (.enqueueUnlock c) { s with qlock := none } c.back
  | signalLock {g} (h : s.semLk = none) :
    PoolNext t s (.signalLock g) { s with semLk := some t } (.signalSet g)
  | signalSet {g} :
    PoolNext t s (.signalSet g) { s with val := 1 } (.signalCond g)
  | signalCond {g sleepers} (h : CondSignal s.condSleepers sleepers) :
    PoolNext t s (.signalCond g) { s with condSleepers := sleepers } (.signalUnlock g)
  | signalUnlock {g} :
    PoolNext t s (.signalUnlock g) { s with semLk := none } g.back
  | waitLock {n} (h : s.lock = none) :
    PoolNext t s (.waitLock n) { s with lock := some t } (.waitJobs n)
  | waitJobs {n} (h : s.jobs ≠ []) :
    PoolNext t s (.waitJobs n) s (.waitSleep n)
  | waitNoJobs {n} (h : s.jobs = []) :
    PoolNext t s (.waitJobs n) s (.waitActive n)
  | waitActive {n} (h : s.activeThreads ≠ 0) :
    PoolNext t s (.waitActive n) s (.waitSleep n)
  | waitNoActive {n} (h : s.activeThreads = 0) :
    PoolNext t s (.waitActive n) s (.waitUnlock n)
  | waitSleep {n} :
    PoolNext t s (.waitSleep n)
      { s with lock := none, noWorkSleepers := insert t s.noWorkSleepers } (.waitAsleep n)
  | waitWoken {n} (hwoken : t ∉ s.noWorkSleepers) (h : s.lock = none) :
    PoolNext t s (.waitAsleep n) { s with lock := some t } (.waitJobs n)
  | waitUnlock {n} :
    PoolNext t s (.waitUnlock n) { s with lock := none } .idle
  | startLock (h : s.lock = none) :
    PoolNext t s .startLock { s with lock := some t } .startCount
  | startCount :
    PoolNext t s .startCount { s with aliveThreads := s.aliveThreads + 1 } .startUnlock
  | startUnlock :
    PoolNext t s .startUnlock { s with lock := none } .semLock
  | semLock (h : s.semLk = none) :
    PoolNext t s .semLock { s with semLk := some t } .semTest
  | semSleep (h : s.val ≠ 1) :
    PoolNext t s .semTest
      { s with semLk := none, condSleepers := insert t s.condSleepers } .semAsleep
  | semWoken (hwoken : t ∉ s.condSleepers) (h : s.semLk = none) :
    PoolNext t s .semAsleep { s with semLk := some t } .semTest
  | semTest (h : s.val = 1) :
    PoolNext t s .semTest s .semClear
  | semClear :
    PoolNext t s .semClear { s with val := 0 } .semUnlock
  | semUnlock :
    PoolNext t s .semUnlock { s with semLk := none } .activeLock
  | activeLock (h : s.lock = none) :
    PoolNext t s .activeLock { s with lock := some t } .activeCount
  | activeCount :
    PoolNext t s .activeCount { s with activeThreads := s.activeThreads + 1 } .activeUnlock
  | activeUnlock :
    PoolNext t s .activeUnlock { s with lock := none } .dequeueLock
  | dequeueLock (h : s.qlock = none) :
    PoolNext t s .dequeueLock { s with qlock := some t } .dequeueTake
  | dequeueTake {j js} (h : s.jobs = j :: js) :
    PoolNext t s .dequeueTake { s with jobs := js, started := s.started ++ [j] }
      (.signalLock (.dequeue j))
  | dequeueNothing (h : s.jobs = []) :
    PoolNext t s .dequeueTake s (.dequeueUnlock none)
  | dequeueUnlock {j} :
    PoolNext t s (.dequeueUnlock (some j)) { s with qlock := none } (.calling j)
  | dequeueUnlockNothing :
    PoolNext t s (.dequeueUnlock none) { s with qlock := none } .doneLock
  /-- The callback returns. -/
  | calling {j} :
    PoolNext t s (.calling j) { s with finished := j ::ₘ s.finished } .doneLock
  | doneLock (h : s.lock = none) :
    PoolNext t s .doneLock { s with lock := some t } .doneCount
  | doneCount (h : s.activeThreads - 1 ≠ 0) :
    PoolNext t s .doneCount { s with activeThreads := s.activeThreads - 1 } .doneUnlock
  | doneCountLast (h : s.activeThreads - 1 = 0) :
    PoolNext t s .doneCount { s with activeThreads := s.activeThreads - 1 } .doneSignal
  | doneSignal {sleepers} (h : CondSignal s.noWorkSleepers sleepers) :
    PoolNext t s .doneSignal { s with noWorkSleepers := sleepers } .doneUnlock
  | doneUnlock :
    PoolNext t s .doneUnlock { s with lock := none } .semLock

/-- What comes from outside: calls, by threads outside of the pool and by callbacks, and
wake-ups without a signal.  Only some threads wait. -/
inductive PoolCall (waits : T → Prop) (t : T) (s : ThreadPool T F A) :
    PoolPlace F A → ThreadPool T F A → PoolPlace F A → Prop
  | enqueue (j : ThreadWorkerJob F A) :
    PoolCall waits t s .idle s (.enqueueLock .client j)
  | enqueueFromCallback {j} (j' : ThreadWorkerJob F A) :
    PoolCall waits t s (.calling j) s (.enqueueLock (.job j) j')
  | wait (h : waits t) :
    PoolCall waits t s .idle s (.waitLock s.enqueued.length)
  | wakeWorker :
    PoolCall waits t s .semAsleep { s with condSleepers := s.condSleepers.erase t } .semAsleep
  | wakeWaiter {n} :
    PoolCall waits t s (.waitAsleep n) { s with noWorkSleepers := s.noWorkSleepers.erase t }
      (.waitAsleep n)

/-- A step of the pool and of what is outside. -/
def PoolStep (waits : T → Prop) (t : T) (s : ThreadPool T F A) (p : PoolPlace F A)
    (s' : ThreadPool T F A) (p' : PoolPlace F A) : Prop :=
  PoolNext t s p s' p' ∨ PoolCall waits t s p s' p'

/-- `ThreadPoolNew`: the workers are about to start. -/
def threadPoolNew (worker : T → Bool) : Threads T (ThreadPool T F A) (PoolPlace F A) where
  shared := {}
  place t := if worker t then .startLock else .idle

/-- The states that a pool can get into. -/
def PoolReachable (worker : T → Bool) (waits : T → Prop)
    (c : Threads T (ThreadPool T F A) (PoolPlace F A)) : Prop :=
  Relation.ReflTransGen (Step (PoolStep waits)) (threadPoolNew worker) c

end Polyc
