import RSafeFS.AsyncClient.Pipeline
import RSafeFS.Lib.Budget
import Mathlib.Data.Fintype.Basic

/-!
# The channel of the scheduler

`channel<T>` is a queue with a mutex and a condition variable. Any number of threads send, receive
and ask for the length. In `receive` the front of the queue is copied and then popped, both under
the mutex; in `send` the mutex is let go before `notify_one`, and a thread that waits may also wake
up without being told. Over this stands the queue that a channel is for, of which a send adds an
item at the end and a receive takes the first: every run of the channel is one of the queue, and
the steps of the pipeline treat their channel as one.
-/

namespace RSafeFS.AsyncClient

/-- A queue with the items that have been sent and received. -/
structure Fifo (T : Type) where
  queue : List T
  sent : List T
  received : List T

/-- What a queue is asked to do. -/
inductive FifoAction (T : Type) where
  | send (item : T)
  | receive

/-- A send adds an item at the end, and a receive takes the first one. -/
def Fifo.step {T : Type} (q : Fifo T) : FifoAction T → Option (Fifo T)
  | .send item => some { q with queue := q.queue ++ [item], sent := q.sent ++ [item] }
  | .receive =>
    match q.queue with
    | item :: queue => some { q with queue, received := q.received ++ [item] }
    | [] => none

/-- What was sent is what was received, in the same order, and what is still in the queue. -/
def Fifo.Exact {T : Type} (q : Fifo T) : Prop := q.sent = q.received ++ q.queue

theorem Fifo.Exact.step {T : Type} {q r : Fifo T} {a : FifoAction T} (h : q.Exact)
    (hstep : q.step a = some r) : r.Exact := by
  cases a with
  | send item =>
    obtain rfl := Option.some.inj hstep
    change q.sent ++ [item] = q.received ++ (q.queue ++ [item])
    rw [h, List.append_assoc]
  | receive =>
    simp only [Fifo.step] at hstep
    split at hstep
    · next item queue hqueue =>
      obtain rfl := Option.some.inj hstep
      simpa [Fifo.Exact, hqueue] using h
    · cases hstep

section Channel

variable {T ι : Type}

/-- The functions of a channel. -/
inductive ChannelOp (T : Type) where
  | send (item : T)
  | receive
  | nPendingMessages
  | hasPendingMessages

/-- What is returned of the length of the queue. -/
inductive Pending where
  | number (n : ℕ)
  | present (pending : Bool)

/-- Where a thread is in the code of a channel: it waits for the mutex, has it and has done nothing,
has found the queue not empty, has copied its front, has popped it, has pushed an item, has let
go of the mutex and is about to notify, waits at the condition variable, or has its answer. -/
inductive Place (T : Type) where
  | outside
  | entering (op : ChannelOp T)
  | entered (op : ChannelOp T)
  | ready
  | copied (item : T)
  | popped (item : T)
  | pushed
  | notifying
  | waiting
  | answering (answer : Pending)

/-- A channel with its threads. The last two fields are records for the statements: the items in the
order in which they were pushed, and those that `receive` has returned, with the threads. -/
structure Channel (T ι : Type) where
  queue : List T
  mutex : Option ι
  places : ι → Place T
  sent : List T
  received : List (ι × T)

/-- A channel as constructed. -/
def Channel.initial : Channel T ι := ⟨[], none, fun _ => .outside, [], []⟩

/-- The thread waits at the condition variable. -/
def Place.isWaiting : Place T → Bool
  | .waiting => true
  | _ => false

/-- The thread has the mutex. -/
def Place.holds : Place T → Bool
  | .entered _ | .ready | .copied _ | .popped _ | .pushed | .answering _ => true
  | _ => false

/-- What a thread that has the mutex knows of the queue. -/
def Place.Knows : Place T → List T → Prop
  | .ready, queue => queue ≠ []
  | .copied item, queue => queue.head? = some item
  | .answering (.number n), queue => n = queue.length
  | .answering (.present pending), queue => (pending = true ↔ queue ≠ [])
  | _, _ => True

/-- The item that a thread has popped and not returned. -/
def Place.inHand : Place T → List T
  | .popped item => [item]
  | _ => []

/-- The item in the hand of the thread with the mutex. -/
def Channel.inHand (s : Channel T ι) : List T := s.mutex.elim [] fun i => (s.places i).inHand

/-- The queue that a channel is for: an item counts as received when it is popped. -/
def Channel.fifo (s : Channel T ι) : Fifo T :=
  ⟨s.queue, s.sent, s.received.map Prod.snd ++ s.inHand⟩

/-- At most one thread has the mutex, and it knows the queue. -/
structure Mutual (s : Channel T ι) : Prop where
  holds : ∀ i, (s.places i).holds = true ↔ s.mutex = some i
  knows : ∀ i, (s.places i).Knows s.queue

/-- A thread without the mutex knows nothing. -/
theorem knows_of_not_holds {place : Place T} (h : place.holds = false) (queue : List T) :
    place.Knows queue := by
  cases place with
  | ready | copied | answering => cases h
  | _ => trivial

variable {s : Channel T ι}

/-- The thread at a place that has the mutex is the one that has it. -/
theorem Mutual.mutex_eq (h : Mutual s) {i : ι} {place : Place T} (hplace : s.places i = place)
    (hholds : place.holds = true) : s.mutex = some i := (h.holds i).mp (by rw [hplace, hholds])

/-- A thread at a place without the mutex does not have it. -/
theorem Mutual.mutex_ne (h : Mutual s) {i : ι} {place : Place T} (hplace : s.places i = place)
    (hholds : place.holds = false) : s.mutex ≠ some i := by
  intro hmutex
  have htrue := (h.holds i).mpr hmutex
  rw [hplace, hholds] at htrue
  cases htrue

/-- Threads that wait do not have the mutex. -/
theorem holds_of_isWaiting {place : Place T} (h : place.isWaiting = true) : place.holds = false := by
  cases place with
  | waiting => rfl
  | _ => cases h

/-- What the thread with the mutex has in its hand. -/
theorem inHand_of_mutex {i : ι} (hmutex : s.mutex = some i) : s.inHand = (s.places i).inHand := by
  rw [Channel.inHand, hmutex]
  rfl

theorem mutual_initial : Mutual (Channel.initial : Channel T ι) where
  holds i := iff_of_false (by simp [Channel.initial, Place.holds]) nofun
  knows _ := trivial

variable [DecidableEq ι] {t : Channel T ι}

/-- Move a thread. -/
def Channel.goto (s : Channel T ι) (i : ι) (place : Place T) : Channel T ι :=
  { s with places := Function.update s.places i place }

/-- The next step of a thread on its own. `front` and `pop` need an item in the queue. -/
def Channel.advance (s : Channel T ι) (i : ι) : Place T → Option (Channel T ι)
  | .entering op =>
    if s.mutex.isNone then some ({ s with mutex := some i }.goto i (.entered op)) else none
  | .entered (.send item) =>
    some ({ s with queue := s.queue ++ [item], sent := s.sent ++ [item] }.goto i .pushed)
  | .entered .receive =>
    some (if s.queue.isEmpty then { s with mutex := none }.goto i .waiting else s.goto i .ready)
  | .entered .nPendingMessages => some (s.goto i (.answering (.number s.queue.length)))
  | .entered .hasPendingMessages => some (s.goto i (.answering (.present !s.queue.isEmpty)))
  | .ready =>
    match s.queue with
    | item :: _ => some (s.goto i (.copied item))
    | [] => none
  | .copied item =>
    match s.queue with
    | _ :: queue => some ({ s with queue }.goto i (.popped item))
    | [] => none
  | .popped item =>
    some ({ s with mutex := none, received := s.received ++ [(i, item)] }.goto i .outside)
  | .pushed => some ({ s with mutex := none }.goto i .notifying)
  | .answering _ => some ({ s with mutex := none }.goto i .outside)
  | .outside | .notifying | .waiting => none

/-- A step of one thread keeps the mutual exclusion if the mutex is where it should be and, where
the queue has changed, was with the thread. -/
theorem Mutual.of_step (h : Mutual s) {i : ι} {place : Place T}
    (hplaces : t.places = Function.update s.places i place)
    (hmutex : t.mutex = if place.holds then some i else if s.mutex = some i then none else s.mutex)
    (hfree : place.holds = true → s.mutex = none ∨ s.mutex = some i)
    (hqueue : t.queue = s.queue ∨ s.mutex = some i) (hknows : place.Knows t.queue) : Mutual t := by
  constructor
  · intro j
    rw [hplaces, hmutex]
    by_cases hj : j = i
    · subst hj
      rw [Function.update_self]
      cases hplace : place.holds with
      | true => simp
      | false =>
        by_cases hheld : s.mutex = some j <;> simp [hheld]
    · rw [Function.update_of_ne hj, h.holds j]
      cases hplace : place.holds with
      | true =>
        rcases hfree hplace with hnone | hheld
        · simp [hnone, Ne.symm hj]
        · simp [hheld]
      | false =>
        by_cases hheld : s.mutex = some i
        · simp [hheld, Ne.symm hj]
        · simp [hheld]
  · intro j
    rw [hplaces]
    by_cases hj : j = i
    · subst hj
      rwa [Function.update_self]
    · rw [Function.update_of_ne hj]
      rcases hqueue with hsame | hheld
      · rw [hsame]
        exact h.knows j
      · apply knows_of_not_holds
        rw [Bool.eq_false_iff, ne_eq, h.holds j, hheld]
        exact fun heq => hj (Option.some.inj heq).symm

/-- A thread outside the mutex moves to another place outside. -/
theorem Mutual.goto (h : Mutual s) {i : ι} {place : Place T} (hbefore : (s.places i).holds = false)
    (hafter : place.holds = false) : Mutual (s.goto i place) := by
  apply h.of_step rfl
  · rw [hafter, if_neg Bool.false_ne_true, if_neg (h.mutex_ne rfl hbefore)]
    rfl
  · intro hholds
    rw [hafter] at hholds
    cases hholds
  · exact Or.inl rfl
  · exact knows_of_not_holds hafter _

/-- A thread without the mutex changes nothing in the hand of another. -/
theorem inHand_goto {i : ι} {place : Place T} (hmutex : s.mutex ≠ some i) :
    (s.goto i place).inHand = s.inHand := by
  simp only [Channel.inHand, Channel.goto]
  cases hholder : s.mutex with
  | none => rfl
  | some j =>
    have hj : j ≠ i := by
      rintro rfl
      exact hmutex hholder
    simp only [Option.elim_some, Function.update_of_ne hj]

/-- A thread without the mutex moves: the queue is the same. -/
theorem fifo_goto {i : ι} {place : Place T} (hmutex : s.mutex ≠ some i) :
    (s.goto i place).fifo = s.fifo := by
  rw [Channel.fifo, Channel.fifo, inHand_goto hmutex]
  rfl

/-- The thread with the mutex, which has nothing in its hand, moves or lets go: the queue is the
same. -/
theorem fifo_of_mutex {i : ι} {place place' : Place T} (hmutex : s.mutex = some i)
    (hplace : s.places i = place) (hbefore : place.inHand = []) {u : Channel T ι}
    (hu : u.queue = s.queue ∧ u.sent = s.sent ∧ u.received = s.received)
    (hhand : u.mutex = none ∨ u.mutex = some i) (hafter : place'.inHand = []) :
    (u.goto i place').fifo = s.fifo := by
  obtain ⟨hqueue, hsent, hreceived⟩ := hu
  have hempty : (u.goto i place').inHand = [] := by
    rcases hhand with hnone | hsome
    · simp [Channel.inHand, Channel.goto, hnone]
    · simp [Channel.inHand, Channel.goto, hsome, hafter]
  rw [Channel.fifo, Channel.fifo, hempty, inHand_of_mutex hmutex, hplace, hbefore]
  simp only [Channel.goto, hqueue, hsent, hreceived]

variable [Fintype ι]

/-- A thread calls a function, goes on in it, or notifies: one of the threads that wait, or none if
none waits. A thread that waits may wake up on its own. -/
inductive ChannelAction (T ι : Type) where
  | call (i : ι) (op : ChannelOp T)
  | advance (i : ι)
  | notify (i : ι) (woken : Option ι)
  | wake (i : ι)

/-- One step. A thread that was woken takes the mutex again and looks at the queue again. -/
def Channel.step (s : Channel T ι) : ChannelAction T ι → Option (Channel T ι)
  | .call i op =>
    match s.places i with
    | .outside => some (s.goto i (.entering op))
    | _ => none
  | .advance i => s.advance i (s.places i)
  | .notify i woken =>
    match s.places i, woken with
    | .notifying, some j =>
      if (s.places j).isWaiting then some ((s.goto i .outside).goto j (.entering .receive)) else none
    | .notifying, none =>
      if ∀ j, (s.places j).isWaiting = false then some (s.goto i .outside) else none
    | _, _ => none
  | .wake i => if (s.places i).isWaiting then some (s.goto i (.entering .receive)) else none

/-- What a step can do, with the conditions under which it does it. -/
inductive ChannelSteps (s : Channel T ι) : ChannelAction T ι → Channel T ι → Prop
  | call {i : ι} {op : ChannelOp T} (hplace : s.places i = .outside) :
      ChannelSteps s (.call i op) (s.goto i (.entering op))
  | lock {i : ι} {op : ChannelOp T} (hplace : s.places i = .entering op) (hfree : s.mutex = none) :
      ChannelSteps s (.advance i) ({ s with mutex := some i }.goto i (.entered op))
  | push {i : ι} {item : T} (hplace : s.places i = .entered (.send item)) :
      ChannelSteps s (.advance i)
        ({ s with queue := s.queue ++ [item], sent := s.sent ++ [item] }.goto i .pushed)
  | wait {i : ι} (hplace : s.places i = .entered .receive) (hempty : s.queue = []) :
      ChannelSteps s (.advance i) ({ s with mutex := none }.goto i .waiting)
  | found {i : ι} (hplace : s.places i = .entered .receive) (hqueue : s.queue ≠ []) :
      ChannelSteps s (.advance i) (s.goto i .ready)
  | count {i : ι} (hplace : s.places i = .entered .nPendingMessages) :
      ChannelSteps s (.advance i) (s.goto i (.answering (.number s.queue.length)))
  | look {i : ι} (hplace : s.places i = .entered .hasPendingMessages) :
      ChannelSteps s (.advance i) (s.goto i (.answering (.present !s.queue.isEmpty)))
  | front {i : ι} {item : T} {queue : List T} (hplace : s.places i = .ready)
      (hqueue : s.queue = item :: queue) : ChannelSteps s (.advance i) (s.goto i (.copied item))
  | pop {i : ι} {item first : T} {queue : List T} (hplace : s.places i = .copied item)
      (hqueue : s.queue = first :: queue) :
      ChannelSteps s (.advance i) ({ s with queue }.goto i (.popped item))
  | receive {i : ι} {item : T} (hplace : s.places i = .popped item) :
      ChannelSteps s (.advance i)
        ({ s with mutex := none, received := s.received ++ [(i, item)] }.goto i .outside)
  | unlock {i : ι} (hplace : s.places i = .pushed) :
      ChannelSteps s (.advance i) ({ s with mutex := none }.goto i .notifying)
  | answer {i : ι} {answer : Pending} (hplace : s.places i = .answering answer) :
      ChannelSteps s (.advance i) ({ s with mutex := none }.goto i .outside)
  | notify {i j : ι} (hplace : s.places i = .notifying) (hwaiting : (s.places j).isWaiting = true) :
      ChannelSteps s (.notify i (some j)) ((s.goto i .outside).goto j (.entering .receive))
  | notifyNone {i : ι} (hplace : s.places i = .notifying)
      (hnone : ∀ j, (s.places j).isWaiting = false) :
      ChannelSteps s (.notify i none) (s.goto i .outside)
  | wake {i : ι} (hwaiting : (s.places i).isWaiting = true) :
      ChannelSteps s (.wake i) (s.goto i (.entering .receive))

variable {a : ChannelAction T ι}

/-- **Inversion.** Every step is one of those listed. -/
theorem channelSteps_of_step (hstep : s.step a = some t) : ChannelSteps s a t := by
  cases a with
  | call i op =>
    simp only [Channel.step] at hstep
    split at hstep
    · next hplace =>
      obtain rfl := Option.some.inj hstep
      exact .call hplace
    · cases hstep
  | advance i =>
    simp only [Channel.step] at hstep
    cases hplace : s.places i with
    | outside | notifying | waiting => simp [hplace, Channel.advance] at hstep
    | entering op =>
      simp only [hplace, Channel.advance] at hstep
      split at hstep
      · next hfree =>
        obtain rfl := Option.some.inj hstep
        exact .lock hplace (by simpa using hfree)
      · cases hstep
    | entered op =>
      cases op with
      | send item =>
        simp only [hplace, Channel.advance] at hstep
        obtain rfl := Option.some.inj hstep
        exact .push hplace
      | receive =>
        simp only [hplace, Channel.advance] at hstep
        obtain rfl := Option.some.inj hstep
        split
        · next hempty => exact .wait hplace (by simpa using hempty)
        · next hqueue => exact .found hplace (by simpa using hqueue)
      | nPendingMessages =>
        simp only [hplace, Channel.advance] at hstep
        obtain rfl := Option.some.inj hstep
        exact .count hplace
      | hasPendingMessages =>
        simp only [hplace, Channel.advance] at hstep
        obtain rfl := Option.some.inj hstep
        exact .look hplace
    | ready =>
      simp only [hplace, Channel.advance] at hstep
      split at hstep
      · next item queue hqueue =>
        obtain rfl := Option.some.inj hstep
        exact .front hplace hqueue
      · cases hstep
    | copied item =>
      simp only [hplace, Channel.advance] at hstep
      split at hstep
      · next first queue hqueue =>
        obtain rfl := Option.some.inj hstep
        exact .pop hplace hqueue
      · cases hstep
    | popped item =>
      simp only [hplace, Channel.advance] at hstep
      obtain rfl := Option.some.inj hstep
      exact .receive hplace
    | pushed =>
      simp only [hplace, Channel.advance] at hstep
      obtain rfl := Option.some.inj hstep
      exact .unlock hplace
    | answering answer =>
      simp only [hplace, Channel.advance] at hstep
      obtain rfl := Option.some.inj hstep
      exact .answer hplace
  | notify i woken =>
    simp only [Channel.step] at hstep
    split at hstep
    · next j hplace =>
      split at hstep
      · next hwaiting =>
        obtain rfl := Option.some.inj hstep
        exact .notify hplace hwaiting
      · cases hstep
    · next hplace =>
      split at hstep
      · next hnone =>
        obtain rfl := Option.some.inj hstep
        exact .notifyNone hplace hnone
      · cases hstep
    · cases hstep
  | wake i =>
    simp only [Channel.step] at hstep
    split at hstep
    · next hwaiting =>
      obtain rfl := Option.some.inj hstep
      exact .wake hwaiting
    · cases hstep

/-- **Step lemma.** Every step keeps the mutual exclusion. -/
theorem Mutual.step (h : Mutual s) (hstep : s.step a = some t) : Mutual t := by
  cases channelSteps_of_step hstep with
  | call hplace => exact h.goto (by rw [hplace]; rfl) rfl
  | lock hplace hfree => exact h.of_step rfl rfl (fun _ => Or.inl hfree) (Or.inl rfl) trivial
  | push hplace =>
    have hmutex := h.mutex_eq hplace rfl
    exact h.of_step rfl hmutex (fun _ => Or.inr hmutex) (Or.inr hmutex) trivial
  | wait hplace | unlock hplace | receive hplace | answer hplace =>
    have hmutex := h.mutex_eq hplace rfl
    refine h.of_step rfl ?_ nofun (Or.inl rfl) trivial
    rw [if_neg (by simp [Place.holds]), if_pos hmutex]
    rfl
  | found hplace hqueue =>
    have hmutex := h.mutex_eq hplace rfl
    exact h.of_step rfl hmutex (fun _ => Or.inr hmutex) (Or.inl rfl) hqueue
  | count hplace =>
    have hmutex := h.mutex_eq hplace rfl
    exact h.of_step rfl hmutex (fun _ => Or.inr hmutex) (Or.inl rfl) rfl
  | look hplace =>
    have hmutex := h.mutex_eq hplace rfl
    refine h.of_step rfl hmutex (fun _ => Or.inr hmutex) (Or.inl rfl) ?_
    simp [Place.Knows, Channel.goto]
  | front hplace hqueue =>
    have hmutex := h.mutex_eq hplace rfl
    refine h.of_step rfl hmutex (fun _ => Or.inr hmutex) (Or.inl rfl) ?_
    simp [Place.Knows, Channel.goto, hqueue]
  | pop hplace hqueue =>
    have hmutex := h.mutex_eq hplace rfl
    exact h.of_step rfl hmutex (fun _ => Or.inr hmutex) (Or.inr hmutex) trivial
  | @notify i j hplace hwaiting =>
    have hfirst : Mutual (s.goto i .outside) := h.goto (by rw [hplace]; rfl) rfl
    refine hfirst.goto ?_ rfl
    by_cases hj : j = i
    · subst hj
      simp [Channel.goto, Place.holds]
    · simp only [Channel.goto, Function.update_of_ne hj]
      exact holds_of_isWaiting hwaiting
  | notifyNone hplace hnone => exact h.goto (by rw [hplace]; rfl) rfl
  | wake hwaiting => exact h.goto (holds_of_isWaiting hwaiting) rfl

/-- A step of the channel on its queue. -/
def ChannelSteps.ops (s : Channel T ι) : ChannelAction T ι → List (FifoAction T)
  | .advance i =>
    match s.places i with
    | .entered (.send item) => [.send item]
    | .copied _ => [.receive]
    | _ => []
  | _ => []

/-- **Step lemma.** A push and a pop are those of the queue, and nothing else changes it. -/
theorem fifo_of_step (h : Mutual s) (hstep : s.step a = some t) :
    Transition.run Fifo.step s.fifo (ChannelSteps.ops s a) = some t.fifo := by
  have hsame {u : Channel T ι} (hops : ChannelSteps.ops s a = []) (hu : u.fifo = s.fifo) :
      Transition.run Fifo.step s.fifo (ChannelSteps.ops s a) = some u.fifo := by
    rw [hops, hu]
    rfl
  cases channelSteps_of_step hstep with
  | call hplace => exact hsame rfl (fifo_goto (h.mutex_ne hplace rfl))
  | notify hplace hwaiting =>
    refine hsame rfl ((fifo_goto ?_).trans (fifo_goto (h.mutex_ne hplace rfl)))
    exact h.mutex_ne rfl (holds_of_isWaiting hwaiting)
  | notifyNone hplace hnone => exact hsame rfl (fifo_goto (h.mutex_ne hplace rfl))
  | wake hwaiting => exact hsame rfl (fifo_goto (h.mutex_ne rfl (holds_of_isWaiting hwaiting)))
  | @lock i op hplace hfree =>
    refine hsame (by simp [ChannelSteps.ops, hplace]) ?_
    simp [Channel.fifo, Channel.inHand, Channel.goto, hfree, Place.inHand]
  | @push i item hplace =>
    have hmutex := h.mutex_eq hplace rfl
    simp [ChannelSteps.ops, hplace, Transition.run, Fifo.step, Channel.fifo, Channel.goto,
      Channel.inHand, hmutex, Place.inHand]
  | @pop i item first queue hplace hqueue =>
    have hmutex := h.mutex_eq hplace rfl
    have hknows := h.knows i
    rw [hplace, hqueue] at hknows
    obtain rfl := Option.some.inj hknows
    simp [ChannelSteps.ops, hplace, Transition.run, Fifo.step, Channel.fifo, Channel.goto,
      Channel.inHand, hmutex, Place.inHand, hqueue]
  | @receive i item hplace =>
    have hmutex := h.mutex_eq hplace rfl
    refine hsame (by simp [ChannelSteps.ops, hplace]) ?_
    simp [Channel.fifo, Channel.inHand, Channel.goto, hmutex, hplace, Place.inHand]
  | wait hplace | unlock hplace | answer hplace =>
    have hmutex := h.mutex_eq hplace rfl
    refine hsame (by simp [ChannelSteps.ops, hplace]) ?_
    exact fifo_of_mutex hmutex hplace rfl ⟨rfl, rfl, rfl⟩ (Or.inl rfl) rfl
  | found hplace | count hplace | look hplace | front hplace =>
    have hmutex := h.mutex_eq hplace rfl
    refine hsame (by simp [ChannelSteps.ops, hplace]) ?_
    exact fifo_of_mutex hmutex hplace rfl ⟨rfl, rfl, rfl⟩ (Or.inr hmutex) rfl

/-- **Exactness.** In every run of any number of threads, the channel is a run of the queue it is
for: what has been sent is what `receive` has returned, in the same order, with the item that a
thread has popped and is about to return, and with what is in the queue. -/
theorem channel_exact {as : List (ChannelAction T ι)}
    (hrun : Transition.run Channel.step .initial as = some s) :
    (∃ ops, Transition.run Fifo.step ⟨[], [], []⟩ ops = some s.fifo) ∧
      s.sent = s.received.map Prod.snd ++ s.inHand ++ s.queue := by
  have hsim : Mutual s ∧ ∃ ops, Transition.run Fifo.step ⟨[], [], []⟩ ops = some s.fifo := by
    refine Transition.invariant_of_forall (I := fun s : Channel T ι => Mutual s ∧
      ∃ ops, Transition.run Fifo.step ⟨[], [], []⟩ ops = some s.fifo) ?_ hrun
      ⟨mutual_initial, [], rfl⟩
    rintro s a t ⟨hmutual, ops, hops⟩ hstep
    exact ⟨hmutual.step hstep, ops ++ ChannelSteps.ops s a,
      Transition.run_append.mpr ⟨s.fifo, hops, fifo_of_step hmutual hstep⟩⟩
  obtain ⟨_, ops, hops⟩ := hsim
  have hexact : s.fifo.Exact := Transition.invariant_of_forall (I := Fifo.Exact)
    (fun q a r h hstep => h.step hstep) hops rfl
  exact ⟨⟨ops, hops⟩, hexact⟩

/-- Two threads wait; a third sends an item, which the second takes when it wakes up without a reason,
and the notified first one finds the queue empty and waits again. -/
def takenByAnother : List (ChannelAction ℕ (Fin 3)) :=
  [.call 0 .receive, .advance 0, .advance 0, .call 1 .receive, .advance 1, .advance 1,
    .call 2 (.send 7), .advance 2, .advance 2, .advance 2, .wake 1, .advance 1, .advance 1, .advance 1,
    .advance 1, .advance 1, .notify 2 (some 0), .advance 0, .advance 0]

theorem channel_exact_takenByAnother :
    ∃ s, Transition.run Channel.step .initial takenByAnother = some s ∧ s.received = [(1, 7)] ∧
      s.sent = s.received.map Prod.snd ++ s.inHand ++ s.queue := by
  obtain ⟨s, hrun, hreceived⟩ : ∃ s, Transition.run Channel.step .initial takenByAnother = some s ∧
      s.received = [(1, 7)] := ⟨_, rfl, rfl⟩
  exact ⟨s, hrun, hreceived, (channel_exact hrun).2⟩

/-- The thread will look at the queue before it waits, or will wake up one that will. -/
def Place.comes : Place T → ℕ
  | .entering .receive | .entered .receive | .ready | .copied _ | .pushed | .notifying => 1
  | _ => 0

/-- How many threads will look at the queue or wake up one that will. -/
def Channel.coming (s : Channel T ι) : ℕ := ∑ i, (s.places i).comes

/-- **No lost wake-up.** While some thread waits, no more items are in the queue than threads will come
for. -/
def Heeded (s : Channel T ι) : Prop :=
  (∃ j, (s.places j).isWaiting = true) → s.queue.length ≤ s.coming

/-- A step of one thread. -/
theorem coming_goto (i : ι) (place : Place T) :
    (s.goto i place).coming + (s.places i).comes = s.coming + place.comes :=
  Transition.sum_update (Finset.mem_univ i) s.places Place.comes place

/-- A thread moves that does not begin to wait. -/
theorem Heeded.goto (h : Heeded s) {i : ι} {place place' : Place T} {u : Channel T ι}
    (hplace : s.places i = place) (hu : u.places = s.places) (hwaiting : place'.isWaiting = false)
    (hqueue : u.queue.length + place.comes ≤ s.queue.length + place'.comes) :
    Heeded (u.goto i place') := by
  rintro ⟨j, hj⟩
  have hold : (s.places j).isWaiting = true := by
    simp only [Channel.goto, hu] at hj
    by_cases heq : j = i
    · subst heq
      rw [Function.update_self, hwaiting] at hj
      cases hj
    · rwa [Function.update_of_ne heq] at hj
  have hle := h ⟨j, hold⟩
  have hsum := coming_goto (s := u) i place'
  have hcoming : u.coming = s.coming := by rw [Channel.coming, Channel.coming, hu]
  rw [hu, hplace, hcoming] at hsum
  have hsame : (u.goto i place').queue = u.queue := rfl
  rw [hsame]
  omega

/-- **Step lemma.** Every step leaves enough threads to come. -/
theorem Heeded.step (h : Heeded s) (hstep : s.step a = some t) : Heeded t := by
  cases channelSteps_of_step hstep with
  | call hplace => exact h.goto hplace rfl rfl (Nat.add_le_add_left (Nat.zero_le _) _)
  | @lock i op hplace hfree =>
    refine h.goto hplace rfl rfl ?_
    cases op <;> exact Nat.le_refl _
  | push hplace =>
    refine h.goto hplace rfl rfl ?_
    simp [Place.comes]
  | @wait i hplace hempty =>
    intro _
    have hqueue : ({ s with mutex := none }.goto i .waiting).queue = [] := hempty
    rw [hqueue]
    exact Nat.zero_le _
  | found hplace | count hplace | look hplace | front hplace | receive hplace | unlock hplace
  | answer hplace => exact h.goto hplace rfl rfl (Nat.le_refl _)
  | pop hplace hqueue =>
    refine h.goto hplace rfl rfl ?_
    simp [Place.comes, hqueue]
  | @notify i j hplace hwaiting =>
    intro _
    have hle := h ⟨j, hwaiting⟩
    have hfirst := coming_goto (s := s) i .outside
    have hsecond := coming_goto (s := s.goto i .outside) j (.entering .receive)
    have hne : j ≠ i := by
      rintro rfl
      rw [hplace] at hwaiting
      cases hwaiting
    have hzero : (s.places j).comes = 0 := by
      cases hj : s.places j with
      | waiting => rfl
      | _ =>
        rw [hj] at hwaiting
        cases hwaiting
    have hsame : (s.goto i .outside).places j = s.places j := Function.update_of_ne hne _ _
    rw [hplace] at hfirst
    rw [hsame, hzero] at hsecond
    simp only [Place.comes] at hfirst hsecond
    have hqueue : ((s.goto i .outside).goto j (.entering .receive)).queue = s.queue := rfl
    rw [hqueue]
    omega
  | @notifyNone i hplace hnone =>
    rintro ⟨j, hj⟩
    simp only [Channel.goto] at hj
    by_cases heq : j = i
    · subst heq
      rw [Function.update_self] at hj
      cases hj
    · rw [Function.update_of_ne heq, hnone j] at hj
      cases hj
  | wake hwaiting => exact h.goto rfl rfl rfl (by
      rename_i i
      cases hi : s.places i with
      | waiting => exact Nat.le_succ _
      | _ => rw [hi] at hwaiting; cases hwaiting)

/-- A step of a thread on its own, not a new call and not a wake-up without a reason. -/
def ChannelAction.proceeds : ChannelAction T ι → Bool
  | .advance _ | .notify _ _ => true
  | _ => false

/-- **Progress.** A channel in which no thread can go on has no thread in it but those that wait for an
item, and no item for them. -/
theorem waiting_of_quiet (hmutual : Mutual s) (hheeded : Heeded s)
    (hquiet : Transition.Quiet Channel.step (fun a => a.proceeds = true) s) :
    ∀ i, s.places i = .outside ∨ (s.places i = .waiting ∧ s.queue = []) := by
  have hfree : s.mutex = none := by
    by_contra hheld
    obtain ⟨i, hi⟩ := Option.ne_none_iff_exists'.mp hheld
    have hstuck := hquiet (.advance i) rfl
    have hholds := (hmutual.holds i).mpr hi
    have hknows := hmutual.knows i
    simp only [Channel.step] at hstuck
    cases hplace : s.places i with
    | outside | entering | notifying | waiting => simp [hplace, Place.holds] at hholds
    | entered op => cases op <;> simp [hplace, Channel.advance] at hstuck
    | ready =>
      rw [hplace] at hknows
      obtain ⟨item, queue, hqueue⟩ := List.exists_cons_of_ne_nil hknows
      simp [hplace, Channel.advance, hqueue] at hstuck
    | copied item =>
      rw [hplace] at hknows
      obtain ⟨queue, hqueue⟩ := List.head?_eq_some_iff.mp hknows
      simp [hplace, Channel.advance, hqueue] at hstuck
    | popped | pushed | answering => simp [hplace, Channel.advance] at hstuck
  have hplaces : ∀ i, s.places i = .outside ∨ s.places i = .waiting := by
    intro i
    cases hplace : s.places i with
    | outside => exact Or.inl rfl
    | waiting => exact Or.inr rfl
    | entering op =>
      have hstuck := hquiet (.advance i) rfl
      simp [Channel.step, hplace, Channel.advance, hfree] at hstuck
    | notifying =>
      by_cases hsome : ∃ j, (s.places j).isWaiting = true
      · obtain ⟨j, hj⟩ := hsome
        have hstuck := hquiet (.notify i (some j)) rfl
        simp [Channel.step, hplace, hj] at hstuck
      · have hstuck := hquiet (.notify i none) rfl
        push Not at hsome
        simp [Channel.step, hplace, hsome] at hstuck
    | _ =>
      have hheld := hmutual.mutex_eq hplace rfl
      rw [hfree] at hheld
      cases hheld
  have hcoming : s.coming = 0 := by
    apply Finset.sum_eq_zero
    intro i _
    rcases hplaces i with hplace | hplace <;> rw [hplace] <;> rfl
  intro i
  rcases hplaces i with hplace | hplace
  · exact Or.inl hplace
  · have hle := hheeded ⟨i, by rw [hplace]; rfl⟩
    rw [hcoming] at hle
    exact Or.inr ⟨hplace, List.eq_nil_of_length_eq_zero (Nat.eq_zero_of_le_zero hle)⟩

/-- The steps that a thread still takes on its own before it is outside or waits, with those of the
thread that it wakes. -/
def Place.work : Place T → ℕ
  | .outside | .waiting => 0
  | .popped _ | .answering _ => 1
  | .copied _ | .entered .nPendingMessages | .entered .hasPendingMessages => 2
  | .ready | .entering .nPendingMessages | .entering .hasPendingMessages => 3
  | .entered .receive => 4
  | .entering .receive => 5
  | .notifying => 6
  | .pushed => 7
  | .entered (.send _) => 8
  | .entering (.send _) => 9

/-- The steps that are left. -/
def Channel.work (s : Channel T ι) : ℕ := ∑ i, (s.places i).work

/-- A call of a function. -/
def ChannelAction.calls : ChannelAction T ι → Bool
  | .call _ _ => true
  | _ => false

/-- A wake-up without a reason. -/
def ChannelAction.wakes : ChannelAction T ι → Bool
  | .wake _ => true
  | _ => false

/-- A step of one thread. -/
theorem work_goto (i : ι) (place : Place T) :
    (s.goto i place).work + (s.places i).work = s.work + place.work :=
  Transition.sum_update (Finset.mem_univ i) s.places Place.work place

/-- A thread moves to where fewer steps are left. -/
theorem work_lt_of_goto {i : ι} {place place' : Place T} {u : Channel T ι}
    (hplace : s.places i = place) (hu : u.places = s.places) (hless : place'.work < place.work) :
    (u.goto i place').work < s.work := by
  have hsum := work_goto (s := u) i place'
  have hwork : u.work = s.work := by rw [Channel.work, Channel.work, hu]
  rw [hu, hplace, hwork] at hsum
  omega

/-- A thread that waits has no step left of its own. -/
theorem work_of_isWaiting {place : Place T} (h : place.isWaiting = true) : place.work = 0 := by
  cases place with
  | waiting => rfl
  | _ => cases h

/-- **Step lemma.** Every step of a thread on its own leaves fewer, a call brings nine at most, and a
wake-up five. -/
theorem channelWork_step (hstep : s.step a = some t) :
    t.work + (if a.proceeds then 1 else 0) ≤
      s.work + ((if a.calls then 9 else 0) + if a.wakes then 5 else 0) := by
  have hproceeds (hlt : t.work < s.work) : t.work + (if a.proceeds then 1 else 0) ≤
      s.work + ((if a.calls then 9 else 0) + if a.wakes then 5 else 0) := by
    split <;> omega
  cases channelSteps_of_step hstep with
  | @call i op hplace =>
    have hsum := work_goto (s := s) i (.entering op)
    have hle : (Place.entering op).work ≤ 9 := by cases op <;> simp [Place.work]
    have hzero : (Place.outside : Place T).work = 0 := rfl
    rw [hplace, hzero] at hsum
    simp only [ChannelAction.proceeds, ChannelAction.calls, ChannelAction.wakes,
      Bool.false_eq_true, if_true, if_false]
    omega
  | @lock i op hplace hfree =>
    refine hproceeds (work_lt_of_goto hplace rfl ?_)
    cases op <;> simp [Place.work]
  | push hplace | wait hplace | found hplace | count hplace | look hplace | front hplace | pop hplace
  | receive hplace | unlock hplace | answer hplace =>
    refine hproceeds (work_lt_of_goto hplace rfl ?_)
    simp [Place.work]
  | @notify i j hplace hwaiting =>
    have hfirst := work_goto (s := s) i .outside
    have hsecond := work_goto (s := s.goto i .outside) j (.entering .receive)
    rw [hplace] at hfirst
    simp only [Place.work] at hfirst hsecond
    apply hproceeds
    omega
  | notifyNone hplace hnone =>
    refine hproceeds (work_lt_of_goto hplace rfl ?_)
    simp [Place.work]
  | @wake i hwaiting =>
    have hsum := work_goto (s := s) i (.entering .receive)
    rw [work_of_isWaiting hwaiting] at hsum
    simp [ChannelAction.proceeds, ChannelAction.calls, ChannelAction.wakes, Place.work] at hsum ⊢
    omega

/-- **Completion.** In every run the threads take no more than nine steps on their own for each call
and five for each wake-up without a reason; and where none of them can go on, every call has
returned but those of `receive` for which there is no item. -/
theorem channel_completes {as : List (ChannelAction T ι)}
    (hrun : Transition.run Channel.step .initial as = some s) :
    as.countP ChannelAction.proceeds ≤
        9 * as.countP ChannelAction.calls + 5 * as.countP ChannelAction.wakes ∧
      (Transition.Quiet Channel.step (fun a => a.proceeds = true) s →
        ∀ i, s.places i = .outside ∨ (s.places i = .waiting ∧ s.queue = [])) := by
  constructor
  · have hpaid : ∀ (s : Channel T ι) (a : ChannelAction T ι) (t : Channel T ι), True → True →
        s.step a = some t → True ∧ t.work + (if a.proceeds then 1 else 0) ≤
          s.work + ((if a.calls then 9 else 0) + if a.wakes then 5 else 0) :=
      fun s a t _ _ hstep => ⟨trivial, channelWork_step hstep⟩
    have hle := Transition.total_le hpaid hrun (.of_forall_mem fun _ _ _ => trivial) trivial
    have hstart : Channel.work (Channel.initial : Channel T ι) = 0 := by
      simp [Channel.work, Channel.initial, Place.work]
    rw [Transition.total_add, Transition.total_ite, Transition.total_ite, Transition.total_ite,
      hstart] at hle
    omega
  · intro hquiet
    have hboth : Mutual s ∧ Heeded s := by
      refine Transition.invariant_of_forall (I := fun s : Channel T ι => Mutual s ∧ Heeded s) ?_ hrun
        ⟨mutual_initial, ?_⟩
      · rintro s a t ⟨hmutual, hheeded⟩ hstep
        exact ⟨hmutual.step hstep, hheeded.step hstep⟩
      · intro _
        exact Nat.zero_le _
    exact waiting_of_quiet hboth.1 hboth.2 hquiet

/-- Seventeen steps for three calls and one wake-up. -/
theorem channel_completes_takenByAnother :
    ∃ s, Transition.run Channel.step .initial takenByAnother = some s ∧
      takenByAnother.countP ChannelAction.proceeds ≤ 9 * 3 + 5 * 1 := by
  obtain ⟨s, hrun⟩ : ∃ s, Transition.run Channel.step .initial takenByAnother = some s := ⟨_, rfl⟩
  exact ⟨s, hrun, (channel_completes hrun).1⟩

end Channel

/-- A turn of the scheduler sends at most one event. -/
theorem handle_channel {σ : Type} (s : State σ) (event : Event) :
    (s.handle event).channel = s.channel ∨
      ∃ sent, (s.handle event).channel = s.channel ++ [sent] := by
  have hstart (u : State σ) (c : CallData) (hu : u.channel = s.channel) :
      (u.start c).channel = s.channel ∨ ∃ sent, (u.start c).channel = s.channel ++ [sent] := by
    unfold State.start
    split
    · exact Or.inr ⟨.callEnded, by rw [← hu]⟩
    · exact Or.inl hu
  cases event with
  | callEnded =>
    unfold State.handle
    dsimp only
    split
    · exact Or.inl rfl
    · next c calls hcalls => exact hstart { s with calls, flushing := true } c rfl
  | flushRequest =>
    unfold State.handle
    dsimp only
    split
    · exact Or.inl rfl
    · next c calls hcalls =>
      split
      · exact Or.inl rfl
      · exact hstart { s with calls, flushing := true } c rfl
  | terminated =>
    unfold State.handle
    dsimp only
    split
    · exact Or.inl rfl
    · exact Or.inr ⟨.terminated, rfl⟩

/-- A step of the pipeline sends at most one event to its channel, or receives the first one. -/
theorem channel_of_step {σ : Type} {config : ClientConfig} {server : Server σ} {s t : State σ}
    {a : Action} (hstep : s.step config server a = some t) {q : Fifo Event}
    (hq : q.queue = s.channel) :
    ∃ ops r, Transition.run Fifo.step q ops = some r ∧ r.queue = t.channel := by
  have hsame (h : t.channel = s.channel) :
      ∃ ops r, Transition.run Fifo.step q ops = some r ∧ r.queue = t.channel :=
    ⟨[], q, rfl, hq.trans h.symm⟩
  have hsend {event : Event} (h : t.channel = s.channel ++ [event]) :
      ∃ ops r, Transition.run Fifo.step q ops = some r ∧ r.queue = t.channel :=
    ⟨[.send event], _, rfl, by rw [h, ← hq]⟩
  cases steps_of_step hstep with
  | writeLock | writeReady | writeGet | writeAppend | flushGet | proceed | resolve | execute | finish
  | executeOrphan | finishOrphan | fail | lose => exact hsame rfl
  | writeWait | writeFlush | flushSchedule | timer => exact hsend rfl
  | endCall => exact hsend rfl
  | @flushReturn thread mark ok kind hpc =>
    cases kind with
    | flush path fi => cases ok <;> exact hsame rfl
    | fsync path isdatasync fi => cases ok <;> exact hsame rfl
    | destroy => exact hsend rfl
  | @receive event channel hreceived hchannel hrunning =>
    refine ⟨[.receive], { q with queue := channel, received := q.received ++ [event] }, ?_, rfl⟩
    simp [Transition.run, Fifo.step, hq, hchannel]
  | @handle event hreceived =>
    rcases handle_channel { s with received := none } event with hnone | ⟨sent, hsent⟩
    · exact hsame hnone
    · exact hsend hsent

/-- In every run of the pipeline its channel is a run of the queue. -/
theorem channel_of_run {σ : Type} {config : ClientConfig} {server : Server σ} {s : State σ} {w : σ}
    {as : List Action} (hrun : Transition.run (State.step config server) (.initial w) as = some s) :
    ∃ ops q, Transition.run Fifo.step ⟨[], [], []⟩ ops = some q ∧ q.queue = s.channel := by
  apply Transition.simulation (R := fun (s : State σ) (q : Fifo Event) => q.queue = s.channel)
    (P := fun _ => True) _ hrun (fun _ _ => trivial) rfl
  intro s a t q hq _ hstep
  exact channel_of_step hstep hq

end RSafeFS.AsyncClient
