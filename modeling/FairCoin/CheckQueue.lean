import Mathlib
import FairCoin.Lib.Run

/-!
# Checking scripts in parallel

`CCheckQueue` of `src/checkqueue.h`: a master adds batches of checks, workers take them off the
queue in private batches, and the master joins them in `Wait` until no check is left.

Every critical section is one action, and so is every check; a list of actions is an interleaving
of the threads.  The thread `none` is the master.  A thread that waits on its condition variable
can always wake up; the wake-up is spurious when nobody has notified it.  `fQuit` is never set.
The counters do not wrap: a block has far fewer than `2 ^ 32` inputs.

* `CheckQueue.step` — the actions, with the loop of `Loop` cut at the condition variable.
* `CheckQueue.Inv` — the invariant: `nTodo` counts the checks in the queue and in the private
  batches, and the verdict of all checks added is spread over `fAllOk`, queue and batches.
* `CheckQueue.weight` — what every action in `Wait` lowers, spurious wake-ups apart.
* `wait_agrees` — **parallel checking is serial checking**, over every interleaving.
-/

namespace FairCoin

open Run

/-! ## Threads and the queue -/

/-- What a thread does: it is not in `Loop`, it waits on its condition variable, or it works on a
batch of `nNow` checks of which `vChecks` are left. -/
inductive Status (T : Type)
  | outside
  | waiting (notified : Bool)
  | working (vChecks : List T) (nNow : ℕ) (fOk : Bool)
  deriving DecidableEq, Repr

namespace Status

variable {T : Type}

/-- `notify_one` and `notify_all`, for one thread. -/
def notify : Status T → Status T
  | waiting _ => waiting true
  | status => status

/-- The thread waits and has not been notified. -/
def blocked : Status T → Bool
  | waiting notified => !notified
  | _ => false

/-- The checks of the batch, done or not. -/
def size : Status T → ℕ
  | working _ nNow _ => nNow
  | _ => 0

/-- The thread counts as idle. -/
def idle : Status T → ℕ
  | waiting _ => 1
  | _ => 0

/-- The thread counts as a worker. -/
def inLoop : Status T → ℕ
  | outside => 0
  | _ => 1

/-- What is left of the batch of a thread is fine, and so is what is done. -/
def Sound (ok : T → Bool) : Status T → Prop
  | working vChecks _ fOk => fOk = true ∧ ∀ c ∈ vChecks, ok c = true
  | _ => True

/-- What the actions of the thread can still cost. -/
def weight : Status T → ℕ
  | outside => 1
  | waiting notified => if notified then 2 else 0
  | working vChecks _ _ => 2 * vChecks.length + 4

end Status

/-- `CCheckQueue`; the head of `queue` is its back.  `added` are the checks added since `Wait`
returned last, and `results` the checks added before with what `Wait` returned for them. -/
structure CheckQueue (ι T : Type) where
  queue : List T := []
  nIdle : ℕ := 0
  nTotal : ℕ := 0
  fAllOk : Bool := true
  nTodo : ℕ := 0
  threads : Option ι → Status T := fun _ => .outside
  added : List T := []
  results : List (List T × Bool) := []

/-- A step of a thread, or a batch the master adds; `woken` are the workers it notifies. -/
inductive CheckAction (ι T : Type)
  | start (t : Option ι)
  | check (t : Option ι)
  | finish (t : Option ι)
  | wake (t : Option ι)
  | add (vChecks : List T) (woken : ι → Bool)

namespace CheckQueue

variable {ι T : Type} [DecidableEq ι]

/-- The thread changes its status. -/
def set (s : CheckQueue ι T) (t : Option ι) (status : Status T) : CheckQueue ι T :=
  { s with threads := Function.update s.threads t status }

/-- `IsIdle`. -/
def isIdle (s : CheckQueue ι T) : Bool :=
  s.nTotal == s.nIdle && s.nTodo == 0 && s.fAllOk

/-- The number of checks a thread takes. -/
def batchSize (nBatchSize : ℕ) (s : CheckQueue ι T) : ℕ :=
  max 1 (min nBatchSize (s.queue.length / (s.nTotal + s.nIdle + 1)))

/-- `Loop` from the test of the inner loop to the end of the critical section: the master leaves,
the thread waits, or it takes a batch. -/
def takeBatch (nBatchSize : ℕ) (t : Option ι) (s : CheckQueue ι T) : CheckQueue ι T :=
  if s.queue = [] then
    if t = none ∧ s.nTodo = 0 then
      { s.set t .outside with
        nTotal := s.nTotal - 1
        fAllOk := true
        added := []
        results := (s.added, s.fAllOk) :: s.results }
    else { s.set t (.waiting false) with nIdle := s.nIdle + 1 }
  else
    let nNow := s.batchSize nBatchSize
    { s.set t (.working (s.queue.take nNow) nNow s.fAllOk) with queue := s.queue.drop nNow }

/-- A batch is accounted for. -/
def account (nNow : ℕ) (fOk : Bool) (s : CheckQueue ι T) : CheckQueue ι T :=
  { s with fAllOk := s.fAllOk && fOk, nTodo := s.nTodo - nNow }

/-- A worker that has processed the last element informs the master. -/
def notifyMaster (t : Option ι) (s : CheckQueue ι T) : CheckQueue ι T :=
  if s.nTodo = 0 ∧ t ≠ none then s.set none (s.threads none).notify else s

/-- The clean-up of the previous run of the loop. -/
def cleanUp (t : Option ι) (nNow : ℕ) (fOk : Bool) (s : CheckQueue ι T) : CheckQueue ι T :=
  notifyMaster t (account nNow fOk s)

/-- The workers that `Add` notifies: one that waits, if there is one, for one check, and all for
more. -/
def Wakes (s : CheckQueue ι T) (n : ℕ) (woken : ι → Bool) : Prop :=
  (n = 0 ∧ ∀ i, woken i = false) ∨
  (n = 1 ∧ ((∃ i, (s.threads (some i)).blocked = true ∧ ∀ j, woken j = decide (j = i)) ∨
    ((∀ i, (s.threads (some i)).blocked = false) ∧ ∀ i, woken i = false))) ∨
  (1 < n ∧ ∀ i, woken i = true)

instance [Fintype ι] (s : CheckQueue ι T) (n : ℕ) (woken : ι → Bool) :
    Decidable (s.Wakes n woken) :=
  inferInstanceAs (Decidable ((n = 0 ∧ _) ∨ (n = 1 ∧ (_ ∨ _)) ∨ (1 < n ∧ _)))

/-- The threads after `Add` has notified them. -/
def notifyWorkers (s : CheckQueue ι T) (woken : ι → Bool) : Option ι → Status T
  | none => s.threads none
  | some i => if woken i then (s.threads (some i)).notify else s.threads (some i)

/-- The actions: `Thread` and `Wait` begin, a check is made, a batch is finished, a thread wakes
up, the master adds a batch.  An action that is not possible is an error. -/
def step [Fintype ι] (nBatchSize : ℕ) (ok : T → Bool) (s : CheckQueue ι T) :
    CheckAction ι T → Except Unit (CheckQueue ι T)
  | .start t =>
      match s.threads t with
      | .outside => .ok (takeBatch nBatchSize t { s with nTotal := s.nTotal + 1 })
      | _ => .error ()
  | .check t =>
      match s.threads t with
      | .working (check :: vChecks) nNow fOk =>
          .ok (s.set t (.working vChecks nNow (if fOk then ok check else fOk)))
      | _ => .error ()
  | .finish t =>
      match s.threads t with
      | .working [] nNow fOk =>
          .ok (takeBatch nBatchSize t (cleanUp t nNow fOk (s.set t .outside)))
      | _ => .error ()
  | .wake t =>
      match s.threads t with
      | .waiting _ => .ok (takeBatch nBatchSize t { s.set t .outside with nIdle := s.nIdle - 1 })
      | _ => .error ()
  | .add vChecks woken =>
      match s.threads none with
      | .outside =>
          if s.Wakes vChecks.length woken then
            .ok { s with
              queue := vChecks.reverse ++ s.queue
              nTodo := s.nTodo + vChecks.length
              added := s.added ++ vChecks
              threads := s.notifyWorkers woken }
          else .error ()
      | _ => .error ()

/-- A thread wakes up that nobody has notified. -/
def Spurious (s : CheckQueue ι T) (a : CheckAction ι T) : Prop :=
  ∃ t, a = .wake t ∧ (s.threads t).blocked = true

/-! ## One thread and all threads -/

@[simp] theorem threads_set_self (s : CheckQueue ι T) (t : Option ι) (status : Status T) :
    (s.set t status).threads t = status := Function.update_self ..

theorem threads_set_of_ne (s : CheckQueue ι T) {t t' : Option ι} (status : Status T)
    (h : t' ≠ t) : (s.set t status).threads t' = s.threads t' := Function.update_of_ne h ..

omit [DecidableEq ι] in
theorem batchSize_pos (nBatchSize : ℕ) (s : CheckQueue ι T) : 0 < s.batchSize nBatchSize :=
  lt_of_lt_of_le Nat.one_pos (le_max_left _ _)

omit [DecidableEq ι] in
theorem batchSize_le (nBatchSize : ℕ) {s : CheckQueue ι T} (h : s.queue ≠ []) :
    s.batchSize nBatchSize ≤ s.queue.length := by
  have hpos : 0 < s.queue.length := List.length_pos_iff.2 h
  apply max_le hpos
  exact (min_le_right _ _).trans (Nat.div_le_self _ _)

/-- The status of one thread, and of the others, for all threads. -/
theorem sound_set {ok : T → Bool} {s : CheckQueue ι T} {t : Option ι}
    (hold : (s.threads t).Sound ok) (status : Status T) :
    (∀ t', ((s.set t status).threads t').Sound ok) ↔
      status.Sound ok ∧ ∀ t', (s.threads t').Sound ok := by
  refine ⟨fun h => ⟨?_, fun t' => ?_⟩, fun h t' => ?_⟩
  · simpa using h t
  · by_cases ht : t' = t
    · rwa [ht]
    · simpa [threads_set_of_ne s status ht] using h t'
  · by_cases ht : t' = t
    · rw [ht, threads_set_self]
      exact h.1
    · rw [threads_set_of_ne s status ht]
      exact h.2 t'

variable [Fintype ι]

/-- A number of every thread, added up. -/
def tally (s : CheckQueue ι T) (f : Status T → ℕ) : ℕ := ∑ t, f (s.threads t)

theorem tally_set (s : CheckQueue ι T) (t : Option ι) (status : Status T) (f : Status T → ℕ) :
    (s.set t status).tally f + f (s.threads t) = s.tally f + f status := by
  have hset := Finset.add_sum_erase Finset.univ (fun i => f ((s.set t status).threads i))
    (Finset.mem_univ t)
  have hold := Finset.add_sum_erase Finset.univ (fun i => f (s.threads i)) (Finset.mem_univ t)
  have hothers : ∑ i ∈ Finset.univ.erase t, f ((s.set t status).threads i) =
      ∑ i ∈ Finset.univ.erase t, f (s.threads i) := by
    apply Finset.sum_congr rfl
    intro i hi
    rw [threads_set_of_ne s status (Finset.ne_of_mem_erase hi)]
  rw [threads_set_self, hothers] at hset
  rw [tally, tally, ← hset, ← hold]
  omega

omit [DecidableEq ι] in
theorem tally_congr {s s' : CheckQueue ι T} {f : Status T → ℕ}
    (h : ∀ t, f (s'.threads t) = f (s.threads t)) : s'.tally f = s.tally f :=
  Finset.sum_congr rfl fun t _ => h t

omit [DecidableEq ι] in
theorem le_tally (s : CheckQueue ι T) (t : Option ι) (f : Status T → ℕ) :
    f (s.threads t) ≤ s.tally f :=
  Finset.single_le_sum (f := fun t => f (s.threads t)) (fun _ _ => Nat.zero_le _)
    (Finset.mem_univ t)

/-! ## The invariant -/

/-- Nothing has failed, and nothing that is left will. -/
structure Verdict (ok : T → Bool) (s : CheckQueue ι T) : Prop where
  fAllOk : s.fAllOk = true
  queue : ∀ c ∈ s.queue, ok c = true
  batches : ∀ t, (s.threads t).Sound ok

/-- What the counters and the verdict say, with `k` threads inside a critical section. -/
structure Accounts (ok : T → Bool) (k : ℕ) (s : CheckQueue ι T) : Prop where
  todo : s.nTodo = s.queue.length + s.tally Status.size
  idle : s.nIdle = s.tally Status.idle
  total : s.nTotal = s.tally Status.inLoop + k
  batch : ∀ t vChecks nNow fOk, s.threads t = .working vChecks nNow fOk → 0 < nNow
  verdict : (∀ c ∈ s.added, ok c = true) ↔ s.Verdict ok
  added : s.nTodo ≤ s.added.length
  results : ∀ r ∈ s.results, (r.2 = true ↔ ∀ c ∈ r.1, ok c = true)

/-- The invariant: the master waits only while there is something to wait for, or it has been
notified. -/
structure Inv (ok : T → Bool) (k : ℕ) (s : CheckQueue ι T) : Prop extends Accounts ok k s where
  master : ∀ b, s.threads none = .waiting b → s.queue = [] ∧ (b = false → s.nTodo ≠ 0)

/-! ## Critical sections -/

section TakeBatch

variable {ok : T → Bool} {s : CheckQueue ι T} {t : Option ι} (nBatchSize : ℕ)

omit [DecidableEq ι] in
/-- No check is left when `nTodo` is zero. -/
theorem Accounts.drained {k : ℕ} (h : s.Accounts ok k) (hzero : s.nTodo = 0) :
    s.queue = [] ∧ ∀ t vChecks nNow fOk, s.threads t ≠ .working vChecks nNow fOk := by
  have htodo := h.todo
  refine ⟨List.length_eq_zero_iff.1 (by omega), ?_⟩
  intro t vChecks nNow fOk ht
  have hle := le_tally s t Status.size
  have hpos := h.batch t vChecks nNow fOk ht
  rw [ht] at hle
  have hsize : (Status.working vChecks nNow fOk).size = nNow := rfl
  omega

omit [DecidableEq ι] in
theorem Accounts.verdict_of_drained {k : ℕ} (h : s.Accounts ok k) (hzero : s.nTodo = 0) :
    s.fAllOk = true ↔ ∀ c ∈ s.added, ok c = true := by
  rw [h.verdict]
  obtain ⟨hqueue, hbatches⟩ := h.drained hzero
  refine ⟨fun hall => ⟨hall, by simp [hqueue], fun t => ?_⟩, fun hv => hv.fAllOk⟩
  cases ht : s.threads t with
  | outside => trivial
  | waiting b => trivial
  | working vChecks nNow fOk => exact absurd ht (hbatches t vChecks nNow fOk)

/-- The master leaves. -/
theorem Inv.leave (h : s.Inv ok 1) (hmaster : s.threads none = .outside) (hzero : s.nTodo = 0) :
    Inv ok 0 { s.set none .outside with
      nTotal := s.nTotal - 1
      fAllOk := true
      added := []
      results := (s.added, s.fAllOk) :: s.results } := by
  have hsame : s.set none .outside = s := by
    rw [set, ← hmaster, Function.update_eq_self]
  obtain ⟨hqueue, hbatches⟩ := h.drained hzero
  rw [hsame]
  refine ⟨⟨h.todo, h.idle, ?_, h.batch, ?_, hzero.le, ?_⟩, ?_⟩
  · show s.nTotal - 1 = s.tally Status.inLoop + 0
    have htotal := h.total
    omega
  · refine ⟨fun _ => ⟨rfl, ?_, fun t => ?_⟩, fun _ => by simp⟩
    · show ∀ c ∈ s.queue, ok c = true
      simp [hqueue]
    · show (s.threads t).Sound ok
      cases ht : s.threads t with
      | outside => trivial
      | waiting b => trivial
      | working vChecks nNow fOk => exact absurd ht (hbatches t vChecks nNow fOk)
  · intro r hr
    rcases List.mem_cons.1 hr with rfl | hr
    · exact h.verdict_of_drained hzero
    · exact h.results r hr
  · intro b hb
    exact absurd (hmaster.symm.trans hb) (by simp)

/-- The thread waits. -/
theorem Inv.rest (h : s.Inv ok 1) (ht : s.threads t = .outside) (hqueue : s.queue = [])
    (hstay : ¬(t = none ∧ s.nTodo = 0)) :
    Inv ok 0 { s.set t (.waiting false) with nIdle := s.nIdle + 1 } := by
  have hsize := tally_set s t (.waiting false) Status.size
  have hidle := tally_set s t (.waiting false) Status.idle
  have hloop := tally_set s t (.waiting false) Status.inLoop
  rw [ht] at hsize hidle hloop
  simp only [Status.size, Status.idle, Status.inLoop, Nat.add_zero] at hsize hidle hloop
  refine ⟨⟨?_, ?_, ?_, ?_, ?_, h.added, h.results⟩, ?_⟩
  · show s.nTodo = s.queue.length + (s.set t (.waiting false)).tally Status.size
    rw [hsize]
    exact h.todo
  · show s.nIdle + 1 = (s.set t (.waiting false)).tally Status.idle
    rw [hidle, h.idle]
  · show s.nTotal = (s.set t (.waiting false)).tally Status.inLoop + 0
    rw [hloop, h.total]
  · intro t' vChecks nNow fOk ht'
    change (s.set t (.waiting false)).threads t' = _ at ht'
    by_cases heq : t' = t
    · rw [heq, threads_set_self] at ht'
      exact absurd ht' (by simp)
    · exact h.batch t' vChecks nNow fOk ((threads_set_of_ne s _ heq).symm.trans ht')
  · refine h.verdict.trans ⟨fun hv => ⟨hv.fAllOk, hv.queue, ?_⟩, fun hv => ⟨hv.fAllOk, hv.queue, ?_⟩⟩
    · exact (sound_set (hv.batches t) (.waiting false)).2 ⟨trivial, hv.batches⟩
    · exact ((sound_set (ht ▸ trivial) (.waiting false)).1 hv.batches).2
  · intro b hb
    refine ⟨hqueue, fun _ => ?_⟩
    show s.nTodo ≠ 0
    by_cases hnone : t = none
    · exact fun hzero => hstay ⟨hnone, hzero⟩
    · have hmaster : s.threads none = .waiting b :=
        (threads_set_of_ne s _ (Ne.symm hnone)).symm.trans hb
      exact (h.master b hmaster).2 ‹_›

/-- The thread takes checks off the queue. -/
theorem Inv.take (h : s.Inv ok 1) (ht : s.threads t = .outside) {nNow : ℕ} (hpos : 0 < nNow)
    (hle : nNow ≤ s.queue.length) :
    Inv ok 0 { s.set t (.working (s.queue.take nNow) nNow s.fAllOk) with
      queue := s.queue.drop nNow } := by
  have hsize := tally_set s t (.working (s.queue.take nNow) nNow s.fAllOk) Status.size
  have hidle := tally_set s t (.working (s.queue.take nNow) nNow s.fAllOk) Status.idle
  have hloop := tally_set s t (.working (s.queue.take nNow) nNow s.fAllOk) Status.inLoop
  rw [ht] at hsize hidle hloop
  simp only [Status.size, Status.idle, Status.inLoop, Nat.add_zero] at hsize hidle hloop
  refine ⟨⟨?_, ?_, ?_, ?_, ?_, h.added, h.results⟩, ?_⟩
  · show s.nTodo = (s.queue.drop nNow).length + tally (s.set t _) Status.size
    rw [hsize, List.length_drop, h.todo]
    omega
  · show s.nIdle = tally (s.set t _) Status.idle
    rw [hidle, h.idle]
  · show s.nTotal = tally (s.set t _) Status.inLoop + 0
    rw [hloop, h.total]
  · intro t' vChecks n fOk ht'
    change (s.set t (.working (s.queue.take nNow) nNow s.fAllOk)).threads t' = _ at ht'
    by_cases heq : t' = t
    · rw [heq, threads_set_self] at ht'
      cases ht'
      exact hpos
    · exact h.batch t' vChecks n fOk ((threads_set_of_ne s _ heq).symm.trans ht')
  · have hqueue : (∀ c ∈ s.queue, ok c = true) ↔
        (∀ c ∈ s.queue.take nNow, ok c = true) ∧ ∀ c ∈ s.queue.drop nNow, ok c = true := by
      conv_lhs => rw [← List.take_append_drop nNow s.queue]
      exact List.forall_mem_append
    refine h.verdict.trans ⟨fun hv => ?_, fun hv => ?_⟩
    · obtain ⟨htake, hdrop⟩ := hqueue.1 hv.queue
      exact ⟨hv.fAllOk, hdrop,
        (sound_set (hv.batches t) (.working _ _ _)).2 ⟨⟨hv.fAllOk, htake⟩, hv.batches⟩⟩
    · obtain ⟨⟨_, htake⟩, hbatches⟩ := (sound_set (ht ▸ trivial) (.working _ _ _)).1 hv.batches
      exact ⟨hv.fAllOk, hqueue.2 ⟨htake, hv.queue⟩, hbatches⟩
  · intro b hb
    by_cases hnone : t = none
    · subst hnone
      exact absurd (hb.symm.trans (threads_set_self s none _)) (by simp)
    · have hmaster : s.threads none = .waiting b :=
        (threads_set_of_ne s _ (Ne.symm hnone)).symm.trans hb
      obtain ⟨hempty, _⟩ := h.master b hmaster
      rw [hempty] at hle
      exact absurd hle (Nat.not_le.2 hpos)

/-- **A critical section ends.** -/
theorem Inv.takeBatch (h : s.Inv ok 1) (ht : s.threads t = .outside) :
    Inv ok 0 (takeBatch nBatchSize t s) := by
  rw [CheckQueue.takeBatch]
  by_cases hqueue : s.queue = []
  · rw [if_pos hqueue]
    by_cases hleave : t = none ∧ s.nTodo = 0
    · rw [if_pos hleave]
      obtain ⟨rfl, hzero⟩ := hleave
      exact h.leave ht hzero
    · rw [if_neg hleave]
      exact h.rest ht hqueue hleave
  · rw [if_neg hqueue]
    exact h.take ht (batchSize_pos nBatchSize s) (batchSize_le nBatchSize hqueue)

end TakeBatch

/-! ## Steps -/

section Steps

variable {ok : T → Bool} {s : CheckQueue ι T} {t : Option ι}

omit [Fintype ι] in
theorem set_set (s : CheckQueue ι T) (t : Option ι) (status status' : Status T) :
    (s.set t status).set t status' = s.set t status' := by
  simp [set, Function.update_idem]

/-- A notification changes no count. -/
theorem Accounts.notify {k : ℕ} (h : s.Accounts ok k) (t : Option ι) :
    Accounts ok k (s.set t (s.threads t).notify) := by
  have hcount : ∀ f : Status T → ℕ, f (s.threads t).notify = f (s.threads t) →
      (s.set t (s.threads t).notify).tally f = s.tally f := by
    intro f hf
    have hset := tally_set s t (s.threads t).notify f
    omega
  have hsame : (s.threads t).notify.size = (s.threads t).size ∧
      (s.threads t).notify.idle = (s.threads t).idle ∧
      (s.threads t).notify.inLoop = (s.threads t).inLoop := by
    cases s.threads t <;> exact ⟨rfl, rfl, rfl⟩
  have hsound : (s.threads t).notify.Sound ok ↔ (s.threads t).Sound ok := by
    cases s.threads t <;> rfl
  refine ⟨?_, ?_, ?_, ?_, ?_, h.added, h.results⟩
  · rw [hcount _ hsame.1]
    exact h.todo
  · rw [hcount _ hsame.2.1]
    exact h.idle
  · rw [hcount _ hsame.2.2]
    exact h.total
  · intro t' vChecks nNow fOk ht'
    by_cases heq : t' = t
    · rw [heq, threads_set_self] at ht'
      cases hstatus : s.threads t with
      | outside => exact absurd (hstatus ▸ ht') (by simp [Status.notify])
      | waiting b => exact absurd (hstatus ▸ ht') (by simp [Status.notify])
      | working v n f =>
        rw [hstatus] at ht'
        obtain ⟨rfl, rfl, rfl⟩ : v = vChecks ∧ n = nNow ∧ f = fOk := by
          simpa [Status.notify] using ht'
        exact h.batch t v n f hstatus
    · exact h.batch t' vChecks nNow fOk ((threads_set_of_ne s _ heq).symm.trans ht')
  · refine h.verdict.trans ⟨fun hv => ⟨hv.fAllOk, hv.queue, ?_⟩, fun hv => ⟨hv.fAllOk, hv.queue, ?_⟩⟩
    · exact (sound_set (hv.batches t) _).2 ⟨hsound.2 (hv.batches t), hv.batches⟩
    · intro t'
      by_cases heq : t' = t
      · have ht := hv.batches t
        rw [threads_set_self] at ht
        rw [heq]
        exact hsound.1 ht
      · have ht' := hv.batches t'
        rwa [threads_set_of_ne s _ heq] at ht'

/-- A batch is accounted for. -/
theorem Inv.account (h : s.Inv ok 0) {nNow : ℕ} {fOk : Bool}
    (ht : s.threads t = .working [] nNow fOk) :
    Accounts ok 1 (account nNow fOk (s.set t .outside)) := by
  have hsize := tally_set s t .outside Status.size
  have hidle := tally_set s t .outside Status.idle
  have hloop := tally_set s t .outside Status.inLoop
  rw [ht] at hsize hidle hloop
  simp only [Status.size, Status.idle, Status.inLoop, Nat.add_zero] at hsize hidle hloop
  refine ⟨?_, ?_, ?_, ?_, ?_, (Nat.sub_le _ _).trans h.added, h.results⟩
  · show s.nTodo - nNow = s.queue.length + (s.set t .outside).tally Status.size
    rw [h.todo]
    omega
  · show s.nIdle = (s.set t .outside).tally Status.idle
    rw [hidle, h.idle]
  · show s.nTotal = (s.set t .outside).tally Status.inLoop + 1
    rw [hloop, h.total, Nat.add_zero]
  · intro t' vChecks n f ht'
    change (s.set t .outside).threads t' = _ at ht'
    by_cases heq : t' = t
    · rw [heq, threads_set_self] at ht'
      exact absurd ht' (by simp)
    · exact h.batch t' vChecks n f ((threads_set_of_ne s _ heq).symm.trans ht')
  · refine h.verdict.trans ⟨fun hv => ?_, fun hv => ?_⟩
    · have hself := hv.batches t
      rw [ht] at hself
      have hall : (s.fAllOk && fOk) = true := by rw [hv.fAllOk, hself.1]; rfl
      exact ⟨hall, hv.queue,
        (sound_set (hv.batches t) .outside).2 ⟨trivial, hv.batches⟩⟩
    · obtain ⟨hall, hok⟩ := (Bool.and_eq_true _ _).mp hv.fAllOk
      refine ⟨hall, hv.queue, fun t' => ?_⟩
      by_cases heq : t' = t
      · rw [heq, ht]
        exact ⟨hok, by simp⟩
      · have ht' := hv.batches t'
        change ((s.set t .outside).threads t').Sound ok at ht'
        rwa [threads_set_of_ne s _ heq] at ht'

theorem Accounts.notifyMaster {k : ℕ} (h : s.Accounts ok k)
    (hqueue : ∀ b, s.threads none = .waiting b → s.queue = [])
    (hout : t = none → s.threads none = .outside) : Inv ok k (notifyMaster t s) := by
  rw [CheckQueue.notifyMaster]
  by_cases hlast : s.nTodo = 0 ∧ t ≠ none
  · rw [if_pos hlast]
    refine ⟨h.notify none, fun b hb => ⟨(h.drained hlast.1).1, ?_⟩⟩
    rintro rfl
    rw [threads_set_self] at hb
    cases hstatus : s.threads none <;> rw [hstatus] at hb <;> simp [Status.notify] at hb
  · rw [if_neg hlast]
    refine ⟨h, fun b hb => ⟨hqueue b hb, fun _ hzero => hlast ⟨hzero, fun hnone => ?_⟩⟩⟩
    exact absurd ((hout hnone).symm.trans hb) (by simp)

/-- The clean-up leaves the thread inside its critical section. -/
theorem Inv.cleanUp (h : s.Inv ok 0) {nNow : ℕ} {fOk : Bool}
    (ht : s.threads t = .working [] nNow fOk) :
    Inv ok 1 (cleanUp t nNow fOk (s.set t .outside)) := by
  apply (h.account ht).notifyMaster
  · intro b hb
    change (s.set t .outside).threads none = _ at hb
    by_cases hnone : none = t
    · rw [hnone, threads_set_self] at hb
      exact absurd hb (by simp)
    · exact (h.master b ((threads_set_of_ne s _ hnone).symm.trans hb)).1
  · rintro rfl
    exact threads_set_self s none _

omit [Fintype ι] in
theorem threads_notifyMaster (t : Option ι) (s : CheckQueue ι T) :
    (CheckQueue.notifyMaster t s).threads t = s.threads t := by
  rw [CheckQueue.notifyMaster]
  split
  · next hlast => exact threads_set_of_ne s _ hlast.2
  · rfl

/-- A thread that wakes up is inside its critical section. -/
theorem Inv.wake (h : s.Inv ok 0) {b : Bool} (ht : s.threads t = .waiting b) :
    Inv ok 1 { s.set t .outside with nIdle := s.nIdle - 1 } := by
  have hsize := tally_set s t .outside Status.size
  have hidle := tally_set s t .outside Status.idle
  have hloop := tally_set s t .outside Status.inLoop
  rw [ht] at hsize hidle hloop
  simp only [Status.size, Status.idle, Status.inLoop, Nat.add_zero] at hsize hidle hloop
  refine ⟨⟨?_, ?_, ?_, ?_, ?_, h.added, h.results⟩, ?_⟩
  · show s.nTodo = s.queue.length + (s.set t .outside).tally Status.size
    rw [hsize]
    exact h.todo
  · show s.nIdle - 1 = (s.set t .outside).tally Status.idle
    rw [h.idle]
    omega
  · show s.nTotal = (s.set t .outside).tally Status.inLoop + 1
    rw [hloop, h.total, Nat.add_zero]
  · intro t' vChecks n f ht'
    change (s.set t .outside).threads t' = _ at ht'
    by_cases heq : t' = t
    · rw [heq, threads_set_self] at ht'
      exact absurd ht' (by simp)
    · exact h.batch t' vChecks n f ((threads_set_of_ne s _ heq).symm.trans ht')
  · refine h.verdict.trans ⟨fun hv => ⟨hv.fAllOk, hv.queue, ?_⟩, fun hv => ⟨hv.fAllOk, hv.queue, ?_⟩⟩
    · exact (sound_set (hv.batches t) .outside).2 ⟨trivial, hv.batches⟩
    · exact ((sound_set (ht ▸ trivial) .outside).1 hv.batches).2
  · intro b' hb
    change (s.set t .outside).threads none = _ at hb
    by_cases hnone : none = t
    · rw [hnone, threads_set_self] at hb
      exact absurd hb (by simp)
    · exact h.master b' ((threads_set_of_ne s _ hnone).symm.trans hb)

/-- A check is made. -/
theorem Inv.check (h : s.Inv ok 0) {check : T} {vChecks : List T} {nNow : ℕ} {fOk : Bool}
    (ht : s.threads t = .working (check :: vChecks) nNow fOk) :
    Inv ok 0 (s.set t (.working vChecks nNow (if fOk then ok check else fOk))) := by
  generalize hstatus : Status.working vChecks nNow (if fOk then ok check else fOk) = status
  have hsize := tally_set s t status Status.size
  have hidle := tally_set s t status Status.idle
  have hloop := tally_set s t status Status.inLoop
  rw [ht, ← hstatus] at hsize hidle hloop
  simp only [Status.size, Status.idle, Status.inLoop, Nat.add_right_cancel_iff, Nat.add_zero]
    at hsize hidle hloop
  rw [hstatus] at hsize hidle hloop
  have hsound : status.Sound ok ↔ (s.threads t).Sound ok := by
    rw [← hstatus, ht]
    cases fOk <;> simp [Status.Sound]
  refine ⟨⟨?_, ?_, ?_, ?_, ?_, h.added, h.results⟩, ?_⟩
  · rw [hsize]
    exact h.todo
  · rw [hidle]
    exact h.idle
  · rw [hloop]
    exact h.total
  · intro t' vs n f ht'
    by_cases heq : t' = t
    · rw [heq, threads_set_self, ← hstatus] at ht'
      cases ht'
      exact h.batch t (check :: vChecks) nNow fOk ht
    · exact h.batch t' vs n f ((threads_set_of_ne s _ heq).symm.trans ht')
  · refine h.verdict.trans ⟨fun hv => ⟨hv.fAllOk, hv.queue, ?_⟩, fun hv => ⟨hv.fAllOk, hv.queue, ?_⟩⟩
    · exact (sound_set (hv.batches t) status).2 ⟨hsound.2 (hv.batches t), hv.batches⟩
    · have hself := hv.batches t
      rw [threads_set_self] at hself
      exact ((sound_set (hsound.1 hself) status).1 hv.batches).2
  · intro b hb
    by_cases hnone : none = t
    · rw [hnone, threads_set_self, ← hstatus] at hb
      exact absurd hb (by simp)
    · exact h.master b ((threads_set_of_ne s _ hnone).symm.trans hb)

omit [DecidableEq ι] in
/-- A batch is added. -/
theorem Inv.add (h : s.Inv ok 0) (hmaster : s.threads none = .outside) (vChecks : List T)
    (woken : ι → Bool) :
    Inv ok 0 { s with
      queue := vChecks.reverse ++ s.queue
      nTodo := s.nTodo + vChecks.length
      added := s.added ++ vChecks
      threads := s.notifyWorkers woken } := by
  have hthread : ∀ t, s.notifyWorkers woken t = s.threads t ∨
      ∃ b, s.threads t = .waiting b ∧ s.notifyWorkers woken t = .waiting true := by
    intro t
    cases t with
    | none => exact .inl rfl
    | some i =>
      rw [notifyWorkers]
      split
      · cases hstatus : s.threads (some i) with
        | waiting b => exact .inr ⟨b, rfl, rfl⟩
        | outside => exact .inl rfl
        | working _ _ _ => exact .inl rfl
      · exact .inl rfl
  have hcount : ∀ f : Status T → ℕ, (∀ b, f (.waiting true) = f (.waiting b)) → ∀ t,
      f (s.notifyWorkers woken t) = f (s.threads t) := by
    intro f hf t
    rcases hthread t with heq | ⟨b, hb, heq⟩
    · rw [heq]
    · rw [heq, hb, hf b]
  have hsound : ∀ t, (s.notifyWorkers woken t).Sound ok ↔ (s.threads t).Sound ok := by
    intro t
    rcases hthread t with heq | ⟨b, hb, heq⟩
    · rw [heq]
    · rw [heq, hb]
      exact Iff.rfl
  refine ⟨⟨?_, ?_, ?_, ?_, ?_, ?_, h.results⟩, ?_⟩
  · show s.nTodo + vChecks.length = (vChecks.reverse ++ s.queue).length + tally _ Status.size
    rw [tally_congr (s := s) (hcount Status.size fun _ => rfl), h.todo, List.length_append,
      List.length_reverse]
    omega
  · show s.nIdle = tally _ Status.idle
    rw [tally_congr (s := s) (hcount Status.idle fun _ => rfl), h.idle]
  · show s.nTotal = tally _ Status.inLoop + 0
    rw [tally_congr (s := s) (hcount Status.inLoop fun _ => rfl), h.total]
  · intro t vs n f ht
    change s.notifyWorkers woken t = _ at ht
    rcases hthread t with heq | ⟨b, hb, heq⟩
    · exact h.batch t vs n f (heq.symm.trans ht)
    · exact absurd (heq.symm.trans ht) (by simp)
  · rw [List.forall_mem_append, h.verdict]
    refine ⟨fun hv => ⟨hv.1.fAllOk, ?_, fun t => (hsound t).2 (hv.1.batches t)⟩,
      fun hv => ⟨⟨hv.fAllOk, ?_, fun t => (hsound t).1 (hv.batches t)⟩, ?_⟩⟩
    · intro c hc
      rcases List.mem_append.1 hc with hc | hc
      · exact hv.2 c (List.mem_reverse.1 hc)
      · exact hv.1.queue c hc
    · exact fun c hc => hv.queue c (List.mem_append_right _ hc)
    · exact fun c hc => hv.queue c (List.mem_append_left _ (List.mem_reverse.2 hc))
  · show s.nTodo + vChecks.length ≤ (s.added ++ vChecks).length
    rw [List.length_append]
    have hadded := h.added
    omega
  · intro b hb
    exact absurd (hmaster.symm.trans hb) (by simp)

/-! ## Runs -/

/-- What an action does, with what makes it possible. -/
theorem step_cases {nBatchSize : ℕ} {a : CheckAction ι T} {s' : CheckQueue ι T}
    (h : s.step nBatchSize ok a = .ok s') :
    (∃ t, a = .start t ∧ s.threads t = .outside ∧
      s' = takeBatch nBatchSize t { s with nTotal := s.nTotal + 1 }) ∨
    (∃ t check vChecks nNow fOk, a = .check t ∧
      s.threads t = .working (check :: vChecks) nNow fOk ∧
      s' = s.set t (.working vChecks nNow (if fOk then ok check else fOk))) ∨
    (∃ t nNow fOk, a = .finish t ∧ s.threads t = .working [] nNow fOk ∧
      s' = takeBatch nBatchSize t (cleanUp t nNow fOk (s.set t .outside))) ∨
    (∃ t b, a = .wake t ∧ s.threads t = .waiting b ∧
      s' = takeBatch nBatchSize t { s.set t .outside with nIdle := s.nIdle - 1 }) ∨
    (∃ vChecks woken, a = .add vChecks woken ∧ s.threads none = .outside ∧
      s' = { s with
        queue := vChecks.reverse ++ s.queue
        nTodo := s.nTodo + vChecks.length
        added := s.added ++ vChecks
        threads := s.notifyWorkers woken }) := by
  cases a with
  | start t =>
    rw [step] at h
    split at h
    · next ht => exact .inl ⟨t, rfl, ht, (Except.ok.inj h).symm⟩
    · exact absurd h (by simp)
  | check t =>
    rw [step] at h
    split at h
    · next check vChecks nNow fOk ht =>
      exact .inr (.inl ⟨t, check, vChecks, nNow, fOk, rfl, ht, (Except.ok.inj h).symm⟩)
    · exact absurd h (by simp)
  | finish t =>
    rw [step] at h
    split at h
    · next nNow fOk ht =>
      exact .inr (.inr (.inl ⟨t, nNow, fOk, rfl, ht, (Except.ok.inj h).symm⟩))
    · exact absurd h (by simp)
  | wake t =>
    rw [step] at h
    split at h
    · next b ht => exact .inr (.inr (.inr (.inl ⟨t, b, rfl, ht, (Except.ok.inj h).symm⟩)))
    · exact absurd h (by simp)
  | add vChecks woken =>
    rw [step] at h
    split at h
    · next ht =>
      split at h
      · exact .inr (.inr (.inr (.inr ⟨vChecks, woken, rfl, ht, (Except.ok.inj h).symm⟩)))
      · exact absurd h (by simp)
    · exact absurd h (by simp)

/-- **One action.** -/
theorem Inv.step {nBatchSize : ℕ} {a : CheckAction ι T} {s' : CheckQueue ι T} (h : s.Inv ok 0)
    (hstep : s.step nBatchSize ok a = .ok s') : s'.Inv ok 0 := by
  rcases step_cases hstep with ⟨t, -, ht, rfl⟩ | ⟨t, check, vChecks, nNow, fOk, -, ht, rfl⟩ |
    ⟨t, nNow, fOk, -, ht, rfl⟩ | ⟨t, b, -, ht, rfl⟩ | ⟨vChecks, woken, -, ht, rfl⟩
  · have henter : Inv ok 1 { s with nTotal := s.nTotal + 1 } :=
      ⟨⟨h.todo, h.idle, congrArg (· + 1) h.total, h.batch, h.verdict.trans
        ⟨fun hv => ⟨hv.fAllOk, hv.queue, hv.batches⟩, fun hv => ⟨hv.fAllOk, hv.queue, hv.batches⟩⟩,
        h.added, h.results⟩, h.master⟩
    exact henter.takeBatch nBatchSize ht
  · exact h.check ht
  · apply (h.cleanUp ht).takeBatch nBatchSize
    rw [CheckQueue.cleanUp, threads_notifyMaster]
    exact threads_set_self s t _
  · exact (h.wake ht).takeBatch nBatchSize (threads_set_self s t _)
  · exact h.add ht vChecks woken

omit [DecidableEq ι] in
theorem inv_empty (ok : T → Bool) : Inv ok 0 ({} : CheckQueue ι T) := by
  have hzero : ∀ f : Status T → ℕ, f .outside = 0 → tally ({} : CheckQueue ι T) f = 0 := by
    intro f hf
    simp [tally, hf]
  refine ⟨⟨?_, ?_, ?_, by simp, ?_, le_refl 0, by simp⟩, by simp⟩
  · rw [hzero Status.size rfl]
    rfl
  · rw [hzero Status.idle rfl]
  · rw [hzero Status.inLoop rfl]
  · exact ⟨fun _ => ⟨rfl, by simp, fun _ => trivial⟩, fun _ => by simp⟩

/-- **Every interleaving.** -/
theorem inv_run (nBatchSize : ℕ) (ok : T → Bool) {actions : List (CheckAction ι T)}
    {s : CheckQueue ι T} (hrun : run (step nBatchSize ok) {} actions = .ok s) : s.Inv ok 0 :=
  run_invariant (C := fun _ _ => True) (fun _ _ _ h _ hstep => h.step hstep) (inv_empty ok)
    (along_of_forall (fun _ _ _ => trivial) _) hrun

omit [Fintype ι] in
/-- `Wait` returns at the end of a critical section of the master. -/
theorem takeBatch_results (nBatchSize : ℕ) (t : Option ι) (s : CheckQueue ι T) :
    (takeBatch nBatchSize t s).results = s.results ∨
      ((takeBatch nBatchSize t s).results = (s.added, s.fAllOk) :: s.results ∧
        (takeBatch nBatchSize t s).added = []) := by
  rw [CheckQueue.takeBatch]
  split
  · split
    · exact .inr ⟨rfl, rfl⟩
    · exact .inl rfl
  · exact .inl rfl

theorem step_results {nBatchSize : ℕ} {a : CheckAction ι T} {s' : CheckQueue ι T}
    (hstep : s.step nBatchSize ok a = .ok s') :
    s'.results = s.results ∨ (s'.added = [] ∧ ∃ fRet, s'.results = (s.added, fRet) :: s.results) := by
  rcases step_cases hstep with ⟨t, -, ht, rfl⟩ | ⟨t, check, vChecks, nNow, fOk, -, ht, rfl⟩ |
    ⟨t, nNow, fOk, -, ht, rfl⟩ | ⟨t, b, -, ht, rfl⟩ | ⟨vChecks, woken, -, ht, rfl⟩
  · rcases takeBatch_results nBatchSize t { s with nTotal := s.nTotal + 1 } with h | ⟨h, hadded⟩
    · exact .inl h
    · exact .inr ⟨hadded, _, h⟩
  · exact .inl rfl
  · have hkeep : (cleanUp t nNow fOk (s.set t .outside)).results = s.results ∧
        (cleanUp t nNow fOk (s.set t .outside)).added = s.added := by
      rw [CheckQueue.cleanUp, CheckQueue.notifyMaster]
      split <;> exact ⟨rfl, rfl⟩
    have htake := takeBatch_results nBatchSize t (cleanUp t nNow fOk (s.set t .outside))
    rw [hkeep.1, hkeep.2] at htake
    rcases htake with h | ⟨h, hadded⟩
    · exact .inl h
    · exact .inr ⟨hadded, _, h⟩
  · rcases takeBatch_results nBatchSize t { s.set t .outside with nIdle := s.nIdle - 1 } with
      h | ⟨h, hadded⟩
    · exact .inl h
    · exact .inr ⟨hadded, _, h⟩
  · exact .inl rfl

/-! ## `Wait` returns -/

/-- What is left to do: every check in the queue is taken, made and accounted for. -/
def weight (s : CheckQueue ι T) : ℕ := 6 * s.queue.length + s.tally Status.weight

theorem weight_set (s : CheckQueue ι T) (t : Option ι) (status : Status T) :
    (s.set t status).weight + (s.threads t).weight = s.weight + status.weight := by
  have htally := tally_set s t status Status.weight
  show 6 * s.queue.length + (s.set t status).tally Status.weight + _ =
    6 * s.queue.length + s.tally Status.weight + _
  omega

theorem weight_takeBatch (nBatchSize : ℕ) (ht : s.threads t = .outside) :
    (takeBatch nBatchSize t s).weight ≤ s.weight ∧
      (t ≠ none → (takeBatch nBatchSize t s).weight < s.weight) := by
  rw [CheckQueue.takeBatch]
  by_cases hqueue : s.queue = []
  · rw [if_pos hqueue]
    by_cases hleave : t = none ∧ s.nTodo = 0
    · rw [if_pos hleave]
      have hset := weight_set s t .outside
      rw [ht] at hset
      refine ⟨?_, fun hne => absurd hleave.1 hne⟩
      show (s.set t .outside).weight ≤ s.weight
      omega
    · rw [if_neg hleave]
      have hset := weight_set s t (.waiting false)
      rw [ht] at hset
      simp only [Status.weight] at hset
      have hlt : (s.set t (.waiting false)).weight < s.weight := by
        simp only [Bool.false_eq_true, if_false] at hset
        omega
      exact ⟨hlt.le, fun _ => hlt⟩
  · rw [if_neg hqueue]
    have hpos := batchSize_pos nBatchSize s
    have hle := batchSize_le nBatchSize hqueue
    simp only
    generalize s.batchSize nBatchSize = nNow at hpos hle ⊢
    have hset := tally_set s t (.working (s.queue.take nNow) nNow s.fAllOk) Status.weight
    rw [ht] at hset
    simp only [Status.weight, List.length_take, min_eq_left hle] at hset
    have hlt : 6 * (s.queue.drop nNow).length +
        (s.set t (.working (s.queue.take nNow) nNow s.fAllOk)).tally Status.weight <
        6 * s.queue.length + s.tally Status.weight := by
      rw [List.length_drop]
      omega
    exact ⟨hlt.le, fun _ => hlt⟩

theorem weight_notifyMaster (t : Option ι) (s : CheckQueue ι T) :
    (CheckQueue.notifyMaster t s).weight ≤ s.weight + 2 := by
  rw [CheckQueue.notifyMaster]
  split
  · have hset := weight_set s none (s.threads none).notify
    have hnotify : (s.threads none).notify.weight ≤ (s.threads none).weight + 2 := by
      cases s.threads none with
      | waiting b => cases b <;> simp [Status.notify, Status.weight]
      | outside => simp [Status.notify]
      | working _ _ _ => simp [Status.notify]
    omega
  · exact Nat.le_add_right _ _

/-- **Every action in `Wait` lowers the weight**, spurious wake-ups apart. -/
theorem weight_step {nBatchSize : ℕ} {a : CheckAction ι T} {s' : CheckQueue ι T}
    (hmaster : s.threads none ≠ .outside) (hreal : ¬s.Spurious a)
    (hstep : s.step nBatchSize ok a = .ok s') : s'.weight < s.weight := by
  rcases step_cases hstep with ⟨t, -, ht, rfl⟩ | ⟨t, check, vChecks, nNow, fOk, -, ht, rfl⟩ |
    ⟨t, nNow, fOk, -, ht, rfl⟩ | ⟨t, b, rfl, ht, rfl⟩ | ⟨vChecks, woken, -, ht, rfl⟩
  · have hne : t ≠ none := by
      rintro rfl
      exact hmaster ht
    exact (weight_takeBatch (s := { s with nTotal := s.nTotal + 1 }) nBatchSize ht).2 hne
  · have hset := weight_set s t (.working vChecks nNow (if fOk then ok check else fOk))
    rw [ht] at hset
    simp only [Status.weight, List.length_cons] at hset
    omega
  · have hset := weight_set s t .outside
    rw [ht] at hset
    simp only [Status.weight, List.length_nil] at hset
    have hthread : (cleanUp t nNow fOk (s.set t .outside)).threads t = .outside := by
      rw [CheckQueue.cleanUp, threads_notifyMaster]
      exact threads_set_self s t _
    have hbatch := (weight_takeBatch nBatchSize hthread).1
    have hclean : (cleanUp t nNow fOk (s.set t .outside)).weight ≤ (s.set t .outside).weight + 2 :=
      weight_notifyMaster t (CheckQueue.account nNow fOk (s.set t .outside))
    omega
  · have hnotified : b = true := by
      cases b with
      | true => rfl
      | false => exact absurd ⟨t, rfl, by rw [ht]; rfl⟩ hreal
    have hset := weight_set s t .outside
    rw [ht, hnotified] at hset
    simp only [Status.weight, if_true] at hset
    have hbatch : (takeBatch nBatchSize t { s.set t .outside with nIdle := s.nIdle - 1 }).weight ≤
        (s.set t .outside).weight :=
      (weight_takeBatch (s := { s.set t .outside with nIdle := s.nIdle - 1 }) nBatchSize
        (threads_set_self s t _)).1
    omega
  · exact absurd ht hmaster

/-- A thread that works can go on. -/
theorem exists_step_of_working (nBatchSize : ℕ) {vChecks : List T} {nNow : ℕ} {fOk : Bool}
    (ht : s.threads t = .working vChecks nNow fOk) :
    ∃ a s', s.step nBatchSize ok a = .ok s' ∧ ¬s.Spurious a := by
  cases vChecks with
  | nil => exact ⟨.finish t, _, by rw [step, ht], by rintro ⟨t', h, -⟩; cases h⟩
  | cons check vChecks => exact ⟨.check t, _, by rw [step, ht], by rintro ⟨t', h, -⟩; cases h⟩

/-- **Nobody waits in vain.**  As long as the master is in `Wait`, some thread can go on without a
spurious wake-up. -/
theorem Inv.progress (h : s.Inv ok 0) (nBatchSize : ℕ) (hmaster : s.threads none ≠ .outside) :
    ∃ a s', s.step nBatchSize ok a = .ok s' ∧ ¬s.Spurious a := by
  cases hstatus : s.threads none with
  | outside => exact absurd hstatus hmaster
  | working vChecks nNow fOk => exact exists_step_of_working nBatchSize hstatus
  | waiting b =>
    cases b with
    | true =>
      refine ⟨.wake none, _, by rw [CheckQueue.step, hstatus], ?_⟩
      rintro ⟨t, ht, hblocked⟩
      cases ht
      rw [hstatus] at hblocked
      exact absurd hblocked (by simp [Status.blocked])
    | false =>
      obtain ⟨hqueue, htodo⟩ := h.master false hstatus
      have hsum : s.tally Status.size ≠ 0 := by
        have heq := h.todo
        rw [hqueue, List.length_nil, Nat.zero_add] at heq
        rw [← heq]
        exact htodo rfl
      obtain ⟨t, -, ht⟩ := Finset.exists_ne_zero_of_sum_ne_zero hsum
      cases hworker : s.threads t with
      | outside => exact absurd (by rw [hworker]; rfl) ht
      | waiting b => exact absurd (by rw [hworker]; rfl) ht
      | working vChecks nNow fOk => exact exists_step_of_working nBatchSize hworker

end Steps

end CheckQueue

/-! ## The main result -/

open CheckQueue

section Idle

variable {ι T : Type} [Fintype ι] {ok : T → Bool} {s : CheckQueue ι T}

theorem CheckQueue.Inv.nTodo_eq_zero (h : s.Inv ok 0) (hadded : s.added = []) : s.nTodo = 0 := by
  have hle := h.added
  rw [hadded, List.length_nil] at hle
  exact Nat.le_zero.1 hle

/-- The queue between two blocks is idle. -/
theorem CheckQueue.Inv.isIdle (h : s.Inv ok 0) (hadded : s.added = []) : s.isIdle = true := by
  have hzero := h.nTodo_eq_zero hadded
  obtain ⟨-, hbatches⟩ := h.drained hzero
  have hall : s.fAllOk = true := (h.verdict_of_drained hzero).2 (by simp [hadded])
  have hcount : s.tally Status.inLoop = s.tally Status.idle := by
    apply Finset.sum_congr rfl
    intro t _
    cases ht : s.threads t with
    | outside => rfl
    | waiting b => rfl
    | working vChecks nNow fOk => exact absurd ht (hbatches t vChecks nNow fOk)
  have htotal := h.total
  have hidle := h.idle
  rw [CheckQueue.isIdle, hall, hzero, htotal, hidle, hcount]
  simp

end Idle

/-- **Parallel checking is serial checking.**  For every number of workers and batch size, in
every state that an interleaving of the threads reaches, over any number of blocks:

* every `Wait` that has returned has returned whether all checks added for it are fine;
* when `Wait` returns, no check is in the queue or in a batch, and the queue is idle, with `fAllOk`
  set;
* it is still idle when `CCheckQueueControl` asserts it for the next block;
* `nTodo` covers every batch that is still to be subtracted from it;
* as long as the master is in `Wait` some thread can go on, and without spurious wake-ups the
  threads can go on only for a bounded number of steps. -/
theorem wait_agrees {ι T : Type} [DecidableEq ι] [Fintype ι] (nBatchSize : ℕ) (ok : T → Bool)
    {actions : List (CheckAction ι T)} {s : CheckQueue ι T}
    (hrun : run (step nBatchSize ok) {} actions = .ok s) :
    (∀ r ∈ s.results, (r.2 = true ↔ ∀ c ∈ r.1, ok c = true)) ∧
    (∀ a s', s.step nBatchSize ok a = .ok s' → s'.results ≠ s.results →
      (∃ fRet, s'.results = (s.added, fRet) :: s.results) ∧ s'.queue = [] ∧
      (∀ t vChecks nNow fOk, s'.threads t ≠ .working vChecks nNow fOk) ∧
      s'.isIdle = true ∧ s'.fAllOk = true) ∧
    (s.added = [] → s.isIdle = true) ∧
    (∀ t vChecks nNow fOk, s.threads t = .working vChecks nNow fOk → nNow ≤ s.nTodo) ∧
    (s.threads none ≠ .outside → ∃ a s', s.step nBatchSize ok a = .ok s' ∧ ¬s.Spurious a) ∧
    ∀ as s', Along (step nBatchSize ok)
      (fun s a => s.threads none ≠ .outside ∧ ¬s.Spurious a) s as →
      run (step nBatchSize ok) s as = .ok s' → as.length ≤ s.weight := by
  have hinv := inv_run nBatchSize ok hrun
  refine ⟨hinv.results, ?_, hinv.isIdle, ?_, hinv.progress nBatchSize, ?_⟩
  · intro a s' hstep hreturned
    have hinv' := hinv.step hstep
    obtain ⟨hadded, hresult⟩ := (step_results hstep).resolve_left hreturned
    have hzero := hinv'.nTodo_eq_zero hadded
    obtain ⟨hqueue, hbatches⟩ := hinv'.drained hzero
    exact ⟨hresult, hqueue, hbatches, hinv'.isIdle hadded,
      (hinv'.verdict_of_drained hzero).2 (by simp [hadded])⟩
  · intro t vChecks nNow fOk ht
    have hle := le_tally s t Status.size
    have htodo := hinv.todo
    rw [ht] at hle
    have hsize : (Status.working vChecks nNow fOk).size = nNow := rfl
    omega
  · intro as s' halong hrun'
    exact length_le_of_lowers (I := fun _ => True)
      (fun _ _ _ _ hC hstep => ⟨trivial, weight_step hC.1 hC.2 hstep⟩) trivial halong hrun'

/-- A worker that waits and the master share two checks, of which one fails. -/
theorem wait_agrees_two_checks :
    ∃ s : CheckQueue Unit Bool,
      run (step 128 id) {} [.start (some ()), .add [true, false] fun _ => true, .start none,
        .wake (some ()), .check (some ()), .check none, .finish (some ()), .finish none] = .ok s ∧
      s.results = [([true, false], false)] ∧
      ∀ r ∈ s.results, (r.2 = true ↔ ∀ c ∈ r.1, id c = true) := by
  obtain ⟨s, hrun, hresults⟩ : ∃ s : CheckQueue Unit Bool,
      run (step 128 id) {} [.start (some ()), .add [true, false] fun _ => true, .start none,
        .wake (some ()), .check (some ()), .check none, .finish (some ()), .finish none] = .ok s ∧
      s.results = [([true, false], false)] := ⟨_, rfl, rfl⟩
  exact ⟨s, hrun, hresults, (wait_agrees 128 id hrun).1⟩

end FairCoin
