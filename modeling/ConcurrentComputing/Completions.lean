import ConcurrentComputing.Runs
import Mathlib.Data.List.Nodup

/-! # Waiting for a request

The threads of a process share one `Context` and with it one send completion queue. A
thread posts a request whose id is the address of a token on its stack, and in
`waitUntilCompleted` takes completions from the queue until its token is complete. The
completions it takes are as often those of others, whose tokens it then writes. -/

namespace ConcurrentComputing.Completions

open Runs Function

/-! ## Requests -/

/-- `RequestToken`: the two flags that threads write to each other. -/
structure Token where
  success : Bool
  completed : Bool
  deriving DecidableEq, Repr

/-- A request. Its token lies in a slot of the stack of the thread that posts it;
`number` tells the requests of a run apart, and nothing reads it. -/
structure Request (ι : Type) where
  owner : ι
  slot : Nat
  number : Nat
  deriving DecidableEq, Repr

def Request.token {ι : Type} (r : Request ι) : ι × Nat := (r.owner, r.slot)

/-- `ibv_wc`: the request and whether its status is `IBV_WC_SUCCESS`. -/
structure Completion (ι : Type) where
  request : Request ι
  success : Bool
  deriving DecidableEq, Repr

/-- Where a thread is: in `reset`, before each of its stores, before `ibv_post_send`, at
the head of the loop of `waitUntilCompleted`, before `ibv_poll_cq`, and in
`setCompleted`, before each of its stores. -/
inductive Pc (ι : Type) where
  | idle
  | reset (r : Request ι)
  | clear (r : Request ι)
  | post (r : Request ι)
  | wait (r : Request ι)
  | poll (r : Request ι)
  | setSuccess (r : Request ι) (wc : Completion ι)
  | setCompleted (r : Request ι) (wc : Completion ι)
  deriving DecidableEq, Repr

/-- `finished` and `returned` keep what the device has done and what the calls have
found in their tokens. -/
structure State (ι : Type) where
  token : ι × Nat → Token
  /-- what the device has yet to do -/
  posted : List (Request ι)
  queue : List (Completion ι)
  thread : ι → Pc ι
  count : Nat
  finished : List (Completion ι)
  returned : List (Completion ι)

inductive Event (ι : Type) where
  | call (i : ι) (slot : Nat)
  | next (i : ι)
  | finish (r : Request ι) (success : Bool)

variable {ι : Type} [DecidableEq ι]

namespace State

def start (token : ι × Nat → Token) : State ι := ⟨token, [], [], fun _ => .idle, 0, [], []⟩

def goto (s : State ι) (i : ι) (pc : Pc ι) : State ι := { s with thread := update s.thread i pc }

def next (s : State ι) (i : ι) : Option (State ι) :=
  match s.thread i with
  | .idle => none
  | .reset r => some { s.goto i (.clear r) with
      token := update s.token r.token { s.token r.token with success := false } }
  | .clear r => some { s.goto i (.post r) with
      token := update s.token r.token { s.token r.token with completed := false } }
  | .post r => some { s.goto i (.wait r) with posted := s.posted ++ [r] }
  | .wait r =>
    if (s.token r.token).completed then
      some { s.goto i .idle with returned := s.returned ++ [⟨r, (s.token r.token).success⟩] }
    else some (s.goto i (.poll r))
  | .poll r =>
    match s.queue with
    | [] => some (s.goto i (.wait r))
    | wc :: rest => some { s.goto i (.setSuccess r wc) with queue := rest }
  | .setSuccess r wc => some { s.goto i (.setCompleted r wc) with
      token := update s.token wc.request.token
        { s.token wc.request.token with success := wc.success } }
  | .setCompleted r wc => some { s.goto i (.wait r) with
      token := update s.token wc.request.token
        { s.token wc.request.token with completed := true } }

end State

/-- One step; `none` when the thread is elsewhere, or the device has no such request. -/
def step (s : State ι) : Event ι → Option (State ι)
  | .call i slot =>
    if s.thread i = .idle then
      some { s.goto i (.reset ⟨i, slot, s.count⟩) with count := s.count + 1 }
    else none
  | .next i => s.next i
  | .finish r success =>
    if r ∈ s.posted then some { s with
      posted := s.posted.erase r
      queue := s.queue ++ [⟨r, success⟩]
      finished := s.finished ++ [⟨r, success⟩] }
    else none

/-! ## Where a request is -/

/-- The way of a thread's request: with the device, in the queue, with the thread that
has taken its completion, and back. -/
inductive Stage (ι : Type) where
  | idle
  | posted (r : Request ι)
  | queued (wc : Completion ι)
  | taken (j : ι) (wc : Completion ι)
  | stored (j : ι) (wc : Completion ι)
  | done (wc : Completion ι)

def Stage.request : Stage ι → Option (Request ι)
  | .idle => none
  | .posted r => some r
  | .queued wc | .taken _ wc | .stored _ wc | .done wc => some wc.request

/-- What the token of the request says. -/
def Stage.Told (token : ι × Nat → Token) (finished : List (Completion ι)) : Stage ι → Prop
  | .idle => True
  | .posted r => (token r.token).completed = false
  | .queued wc | .taken _ wc => (token wc.request.token).completed = false ∧ wc ∈ finished
  | .stored _ wc => token wc.request.token = ⟨wc.success, false⟩ ∧ wc ∈ finished
  | .done wc => token wc.request.token = ⟨wc.success, true⟩ ∧ wc ∈ finished

namespace Pc

/-- The request of the thread. -/
def request : Pc ι → Option (Request ι)
  | .idle => none
  | .reset r | .clear r | .post r | .wait r | .poll r | .setSuccess r _ | .setCompleted r _ =>
    some r

/-- The request the thread has posted. -/
def waiting : Pc ι → Option (Request ι)
  | .idle | .reset _ | .clear _ | .post _ => none
  | .wait r | .poll r | .setSuccess r _ | .setCompleted r _ => some r

/-- The completion the thread has taken from the queue. -/
def taken : Pc ι → Option (Completion ι)
  | .setSuccess _ wc => some wc
  | _ => none

/-- The completion whose status the thread has written. -/
def stored : Pc ι → Option (Completion ι)
  | .setCompleted _ wc => some wc
  | _ => none

end Pc

/-- Every request is in one place only. -/
structure Staged (s : State ι) (stage : ι → Stage ι) : Prop where
  posted_nodup : s.posted.Nodup
  posted : ∀ r, r ∈ s.posted ↔ stage r.owner = .posted r
  queue_nodup : s.queue.Nodup
  queue : ∀ wc, wc ∈ s.queue ↔ stage wc.request.owner = .queued wc
  taken : ∀ p : ι × Completion ι,
    (s.thread p.1).taken = some p.2 ↔ stage p.2.request.owner = .taken p.1 p.2
  stored : ∀ p : ι × Completion ι,
    (s.thread p.1).stored = some p.2 ↔ stage p.2.request.owner = .stored p.1 p.2
  waiting : ∀ i, (s.thread i).waiting = (stage i).request
  told : ∀ i, (stage i).Told s.token s.finished
  own : ∀ i r, (s.thread i).request = some r → r.owner = i
  cleared : ∀ i r, s.thread i = .post r → (s.token r.token).completed = false

variable {s s' : State ι} {stage : ι → Stage ι} {i j : ι} {r : Request ι} {wc : Completion ι}
  {e : Event ι} {pc : Pc ι}

omit [DecidableEq ι] in
theorem Pc.request_of_waiting (h : pc.waiting = some r) : pc.request = some r := by
  cases pc <;> first | exact h | cases h

omit [DecidableEq ι] in
/-- A request that is on its way belongs to the thread it is the stage of. -/
theorem Staged.owner (h : Staged s stage) (hr : (stage i).request = some r) : r.owner = i :=
  h.own i r (Pc.request_of_waiting ((h.waiting i).trans hr))

omit [DecidableEq ι] in
/-- Tokens that change elsewhere, and more that is finished. -/
theorem Stage.Told.frame {st : Stage ι} {token token' : ι × Nat → Token}
    {finished finished' : List (Completion ι)} (h : st.Told token finished)
    (ht : ∀ r, st.request = some r → token' r.token = token r.token)
    (hf : ∀ wc ∈ finished, wc ∈ finished') : st.Told token' finished' := by
  cases st with
  | idle => trivial
  | posted r =>
    change (token' r.token).completed = false
    rw [ht r rfl]
    exact h
  | queued wc | taken j wc =>
    change (token' wc.request.token).completed = false ∧ wc ∈ finished'
    rw [ht wc.request rfl]
    exact ⟨h.1, hf wc h.2⟩
  | stored j wc =>
    change token' wc.request.token = ⟨wc.success, false⟩ ∧ wc ∈ finished'
    rw [ht wc.request rfl]
    exact ⟨h.1, hf wc h.2⟩
  | done wc =>
    change token' wc.request.token = ⟨wc.success, true⟩ ∧ wc ∈ finished'
    rw [ht wc.request rfl]
    exact ⟨h.1, hf wc h.2⟩

/-! ## Places

What is at a place of the system is what has the tag of that place for its stage. When
one stage changes, one thing leaves a place or arrives there, or nothing does. -/

section places

variable {β : Type} {P P' : β → Prop} {own : β → ι} {tag : β → Stage ι} {a : ι} {x : Stage ι}
  {b : β}

theorem stays (h : ∀ b, P b ↔ stage (own b) = tag b) (hold : ∀ b, stage a ≠ tag b)
    (hnew : ∀ b, x ≠ tag b) : ∀ b, P b ↔ update stage a x (own b) = tag b := by
  intro b
  rw [h b]
  by_cases hb : own b = a
  · rw [hb, update_self]
    exact iff_of_false (hold b) (hnew b)
  · rw [update_of_ne hb]

theorem arrives (h : ∀ b, P b ↔ stage (own b) = tag b) (ha : own b = a)
    (hold : ∀ b, stage a ≠ tag b) (htag : Injective tag) (hP : ∀ b', P' b' ↔ P b' ∨ b' = b) :
    ∀ b', P' b' ↔ update stage a (tag b) (own b') = tag b' := by
  intro b'
  rw [hP b', h b']
  by_cases hb : own b' = a
  · rw [hb, update_self, or_iff_right (hold b'), htag.eq_iff, eq_comm]
  · rw [update_of_ne hb]
    refine or_iff_left fun he => hb ?_
    rw [he, ha]

theorem leaves (h : ∀ b, P b ↔ stage (own b) = tag b) (ha : own b = a) (hb : P b)
    (hnew : ∀ b, x ≠ tag b) (htag : Injective tag) (hP : ∀ b', P' b' ↔ P b' ∧ b' ≠ b) :
    ∀ b', P' b' ↔ update stage a x (own b') = tag b' := by
  intro b'
  rw [hP b', h b']
  by_cases hb' : own b' = a
  · rw [hb', update_self]
    refine iff_of_false (fun hboth => hboth.2 (htag ?_)) (hnew b')
    rw [← hboth.1, ← ha]
    exact (h b).mp hb
  · rw [update_of_ne hb']
    refine and_iff_left fun he => hb' ?_
    rw [he, ha]

end places

/-- What is said of the threads does not change when it is the same of the one that
moves. -/
theorem same_of_update {α : Type} {thread : ι → Pc ι} (f : Pc ι → α) (ht : thread i = pc)
    {pc' : Pc ι} (h : f pc' = f pc) (j : ι) : f (update thread i pc' j) = f (thread j) := by
  by_cases hj : j = i
  · rw [hj, update_self, ht, h]
  · rw [update_of_ne hj]

/-- A thread comes to hold something. -/
theorem comes_to {thread : ι → Pc ι} {f : Pc ι → Option (Completion ι)} (ht : thread i = pc)
    (h : f pc = none) {pc' : Pc ι} (h' : f pc' = some wc) (p : ι × Completion ι) :
    f (update thread i pc' p.1) = some p.2 ↔ f (thread p.1) = some p.2 ∨ p = (i, wc) := by
  obtain ⟨j, wc'⟩ := p
  dsimp only
  by_cases hj : j = i
  · rw [hj, update_self, ht, h, h']
    simp [eq_comm]
  · rw [update_of_ne hj]
    simp [hj]

/-- A thread gives something up. -/
theorem gives_up {thread : ι → Pc ι} {f : Pc ι → Option (Completion ι)} (ht : thread i = pc)
    (h : f pc = some wc) {pc' : Pc ι} (h' : f pc' = none) (p : ι × Completion ι) :
    f (update thread i pc' p.1) = some p.2 ↔ f (thread p.1) = some p.2 ∧ p ≠ (i, wc) := by
  obtain ⟨j, wc'⟩ := p
  dsimp only
  by_cases hj : j = i
  · rw [hj, update_self, ht, h, h']
    simp [eq_comm]
  · rw [update_of_ne hj]
    simp [hj]

/-! ## Steps -/

/-- A thread goes on and no request changes its stage. Only a thread that waits for
nothing writes a token of its own. -/
theorem Staged.quiet {pc' : Pc ι} (h : Staged s stage) (ht : s.thread i = pc)
    (hthread : s'.thread = update s.thread i pc') (hposted : s'.posted = s.posted)
    (hqueue : s'.queue = s.queue) (hfinished : s'.finished = s.finished)
    (hwaiting : pc'.waiting = pc.waiting) (htaken : pc'.taken = pc.taken)
    (hstored : pc'.stored = pc.stored) (hown : ∀ r, pc'.request = some r → r.owner = i)
    (htoken : ∀ p, (p.1 = i → pc.waiting ≠ none) → s'.token p = s.token p)
    (hclear : ∀ r, pc' = .post r → (s'.token r.token).completed = false) : Staged s' stage where
  posted_nodup := by rw [hposted]; exact h.posted_nodup
  posted := by rw [hposted]; exact h.posted
  queue_nodup := by rw [hqueue]; exact h.queue_nodup
  queue := by rw [hqueue]; exact h.queue
  taken p := by rw [hthread, same_of_update Pc.taken ht htaken]; exact h.taken p
  stored p := by rw [hthread, same_of_update Pc.stored ht hstored]; exact h.stored p
  waiting j := by rw [hthread, same_of_update Pc.waiting ht hwaiting]; exact h.waiting j
  told j := by
    refine (h.told j).frame (fun r hr => htoken _ fun hi => ?_) (by rw [hfinished]; exact fun _ => id)
    have hj : j = i := (h.owner hr).symm.trans hi
    rw [← ht, ← hj, h.waiting, hr]
    exact Option.some_ne_none r
  own j r hr := by
    rw [hthread] at hr
    by_cases hj : j = i
    · rw [hj, update_self] at hr
      rw [hj]
      exact hown r hr
    · rw [update_of_ne hj] at hr
      exact h.own j r hr
  cleared j r hr := by
    rw [hthread] at hr
    rcases update_cases hr with ⟨-, he⟩ | ⟨hj, hr⟩
    · exact hclear r he
    · have howner : r.owner = j := h.own j r (by rw [hr]; rfl)
      rw [htoken _ fun hi => absurd (howner.symm.trans hi) hj]
      exact h.cleared j r hr

omit [DecidableEq ι] in
theorem posted_injective : Injective (Stage.posted : Request ι → Stage ι) :=
  fun _ _ h => Stage.posted.inj h

omit [DecidableEq ι] in
theorem queued_injective : Injective (Stage.queued : Completion ι → Stage ι) :=
  fun _ _ h => Stage.queued.inj h

omit [DecidableEq ι] in
theorem taken_injective : Injective fun p : ι × Completion ι => Stage.taken p.1 p.2 := by
  rintro ⟨j, wc⟩ ⟨j', wc'⟩ h
  obtain ⟨rfl, rfl⟩ := Stage.taken.inj h
  rfl

omit [DecidableEq ι] in
theorem stored_injective : Injective fun p : ι × Completion ι => Stage.stored p.1 p.2 := by
  rintro ⟨j, wc⟩ ⟨j', wc'⟩ h
  obtain ⟨rfl, rfl⟩ := Stage.stored.inj h
  rfl

omit [DecidableEq ι] in
/-- The stage of a thread whose code waits for nothing. -/
theorem Staged.idle (h : Staged s stage) (ht : (s.thread i).waiting = none) : stage i = .idle := by
  have hnone := (h.waiting i).symm.trans ht
  cases hst : stage i with
  | idle => rfl
  | posted r | queued wc | taken j wc | stored j wc | done wc => rw [hst] at hnone; cases hnone

theorem Staged.taken_stays {a : ι} {x : Stage ι} {pc' : Pc ι} (h : Staged s stage)
    (hpc : pc'.taken = (s.thread i).taken) (hold : ∀ j wc, stage a ≠ .taken j wc)
    (hnew : ∀ j wc, x ≠ .taken j wc) (p : ι × Completion ι) :
    (update s.thread i pc' p.1).taken = some p.2 ↔
      update stage a x p.2.request.owner = .taken p.1 p.2 := by
  rw [same_of_update Pc.taken rfl hpc]
  exact stays h.taken (fun p => hold p.1 p.2) (fun p => hnew p.1 p.2) p

theorem Staged.stored_stays {a : ι} {x : Stage ι} {pc' : Pc ι} (h : Staged s stage)
    (hpc : pc'.stored = (s.thread i).stored) (hold : ∀ j wc, stage a ≠ .stored j wc)
    (hnew : ∀ j wc, x ≠ .stored j wc) (p : ι × Completion ι) :
    (update s.thread i pc' p.1).stored = some p.2 ↔
      update stage a x p.2.request.owner = .stored p.1 p.2 := by
  rw [same_of_update Pc.stored rfl hpc]
  exact stays h.stored (fun p => hold p.1 p.2) (fun p => hnew p.1 p.2) p

/-- One request comes to another stage: what remains to be said beside the places. -/
structure Moves (s s' : State ι) (stage : ι → Stage ι) (i : ι) (pc' : Pc ι) (a : ι)
    (x : Stage ι) : Prop where
  thread : s'.thread = update s.thread i pc'
  request : (x.request = (stage a).request ∧ pc'.waiting = (s.thread i).waiting) ∨
    (a = i ∧ pc'.waiting = x.request)
  told : x.Told s'.token s'.finished
  own : ∀ r, pc'.request = some r → r.owner = i
  post : ∀ r, pc' ≠ .post r
  token : ∀ p, (p.1 = a → x = .idle) → s'.token p = s.token p
  finished : ∀ wc ∈ s.finished, wc ∈ s'.finished

theorem Moves.waiting {a : ι} {x : Stage ι} {pc' : Pc ι} (h : Staged s stage)
    (hm : Moves s s' stage i pc' a x) (j : ι) :
    (s'.thread j).waiting = (update stage a x j).request := by
  rw [hm.thread]
  rcases hm.request with ⟨hx, hpc⟩ | ⟨rfl, hpc⟩
  · rw [same_of_update Pc.waiting rfl hpc, h.waiting]
    by_cases hj : j = a
    · rw [hj, update_self, hx]
    · rw [update_of_ne hj]
  · by_cases hj : j = a
    · rw [hj, update_self, update_self, hpc]
    · rw [update_of_ne hj, update_of_ne hj, h.waiting]

theorem Moves.staged {a : ι} {x : Stage ι} (i : ι) (pc' : Pc ι) (h : Staged s stage)
    (hm : Moves s s' stage i pc' a x) (hposted_nodup : s'.posted.Nodup)
    (hposted : ∀ r, r ∈ s'.posted ↔ update stage a x r.owner = .posted r)
    (hqueue_nodup : s'.queue.Nodup)
    (hqueue : ∀ wc, wc ∈ s'.queue ↔ update stage a x wc.request.owner = .queued wc)
    (htaken : ∀ p : ι × Completion ι, (update s.thread i pc' p.1).taken = some p.2 ↔
      update stage a x p.2.request.owner = .taken p.1 p.2)
    (hstored : ∀ p : ι × Completion ι, (update s.thread i pc' p.1).stored = some p.2 ↔
      update stage a x p.2.request.owner = .stored p.1 p.2) :
    Staged s' (update stage a x) := by
  have hwaiting := hm.waiting h
  have hown : ∀ j r, (s'.thread j).request = some r → r.owner = j := by
    intro j r hr
    rw [hm.thread] at hr
    by_cases hj : j = i
    · rw [hj, update_self] at hr
      rw [hj]
      exact hm.own r hr
    · rw [update_of_ne hj] at hr
      exact h.own j r hr
  refine ⟨hposted_nodup, hposted, hqueue_nodup, hqueue, by rw [hm.thread]; exact htaken,
    by rw [hm.thread]; exact hstored, hwaiting, fun j => ?_, hown, fun j r hr => ?_⟩
  · by_cases hj : j = a
    · rw [hj, update_self]
      exact hm.told
    · rw [update_of_ne hj]
      refine (h.told j).frame (fun r hr => hm.token _ fun ha => ?_) hm.finished
      exact absurd ((h.owner hr).symm.trans ha) hj
  · have howner : r.owner = j := hown j r (by rw [hr]; rfl)
    have hnone := hwaiting j
    rw [hr] at hnone
    have hold : s.thread j = .post r := by
      rw [hm.thread] at hr
      rcases update_cases hr with ⟨-, he⟩ | ⟨-, hr⟩
      · exact absurd he (hm.post r)
      · exact hr
    rw [hm.token _ fun ha => ?_]
    · exact h.cleared j r hold
    · rw [show j = a from howner.symm.trans ha, update_self] at hnone
      cases x with
      | idle => rfl
      | posted r | queued wc | taken j wc | stored j wc | done wc => cases hnone

/-- `ibv_post_send`. -/
theorem Staged.post (h : Staged s stage) (ht : s.thread i = .post r) :
    Staged { s.goto i (.wait r) with posted := s.posted ++ [r] } (update stage i (.posted r)) := by
  have hidle : stage i = .idle := h.idle (by rw [ht]; rfl)
  have howner : r.owner = i := h.own i r (by rw [ht]; rfl)
  have hnew : r ∉ s.posted := fun hmem => by
    have hst := (h.posted r).mp hmem
    rw [howner, hidle] at hst
    cases hst
  have hmoves : Moves s { s.goto i (.wait r) with posted := s.posted ++ [r] } stage i (.wait r) i
      (.posted r) := by
    refine ⟨rfl, Or.inr ⟨rfl, rfl⟩, h.cleared i r ht, fun r' hr' => ?_, nofun, fun _ _ => rfl,
      fun _ => id⟩
    rw [← Option.some.inj hr', howner]
  refine hmoves.staged i _ h ?_ ?_ h.queue_nodup ?_ ?_ ?_
  · exact List.nodup_append.mpr ⟨h.posted_nodup, List.pairwise_singleton _ r, fun a ha b hb he =>
      hnew (List.mem_singleton.mp hb ▸ he ▸ ha)⟩
  · exact arrives h.posted howner (by rw [hidle]; nofun) posted_injective (by simp)
  · exact stays h.queue (by rw [hidle]; nofun) nofun
  · exact h.taken_stays (by rw [ht]; rfl) (by rw [hidle]; nofun) nofun
  · exact h.stored_stays (by rw [ht]; rfl) (by rw [hidle]; nofun) nofun

/-- The device is done with a request. -/
theorem Staged.finish {success : Bool} (h : Staged s stage) (hr : r ∈ s.posted) :
    Staged { s with
      posted := s.posted.erase r
      queue := s.queue ++ [⟨r, success⟩]
      finished := s.finished ++ [⟨r, success⟩] } (update stage r.owner (.queued ⟨r, success⟩)) := by
  have hst := (h.posted r).mp hr
  have htold := h.told r.owner
  have hwaiting := h.waiting r.owner
  rw [hst] at htold hwaiting
  have hnew : ⟨r, success⟩ ∉ s.queue := fun hmem => by
    cases hst.symm.trans ((h.queue _).mp hmem)
  refine Moves.staged r.owner (s.thread r.owner) h ⟨?_, Or.inl ⟨?_, rfl⟩,
    ⟨htold, List.mem_append_right _ (List.mem_singleton_self _)⟩, h.own r.owner, ?_,
    fun _ _ => rfl, fun wc hwc => List.mem_append_left _ hwc⟩ (h.posted_nodup.erase r) ?_ ?_ ?_ ?_ ?_
  · rw [update_eq_self]
  · rw [hst]
    rfl
  · intro r' he
    rw [he] at hwaiting
    cases hwaiting
  · refine leaves h.posted rfl hr nofun posted_injective fun r' => ?_
    rw [h.posted_nodup.mem_erase_iff, and_comm]
  · exact List.nodup_append.mpr ⟨h.queue_nodup, List.pairwise_singleton _ _, fun a ha b hb he =>
      hnew (List.mem_singleton.mp hb ▸ he ▸ ha)⟩
  · exact arrives h.queue rfl (by rw [hst]; nofun) queued_injective (by simp)
  · exact h.taken_stays rfl (by rw [hst]; nofun) nofun
  · exact h.stored_stays rfl (by rw [hst]; nofun) nofun

/-- A thread takes a completion from the queue. -/
theorem Staged.take {rest : List (Completion ι)} (h : Staged s stage) (ht : s.thread i = .poll r)
    (hq : s.queue = wc :: rest) : Staged { s.goto i (.setSuccess r wc) with queue := rest }
      (update stage wc.request.owner (.taken i wc)) := by
  have hmem : wc ∈ s.queue := hq ▸ List.mem_cons_self
  have hst := (h.queue wc).mp hmem
  have htold := h.told wc.request.owner
  rw [hst] at htold
  have hnodup := h.queue_nodup
  rw [hq] at hnodup
  obtain ⟨hnotin, hrest⟩ := List.nodup_cons.mp hnodup
  refine Moves.staged i (.setSuccess r wc) h ⟨rfl, Or.inl ⟨?_, ?_⟩, htold, ?_, nofun,
    fun _ _ => rfl, fun _ => id⟩ h.posted_nodup ?_ hrest ?_ ?_ ?_
  · rw [hst]
    rfl
  · rw [ht]
    rfl
  · intro r' hr'
    exact h.own i r' (by rw [ht]; exact hr')
  · exact stays h.posted (by rw [hst]; nofun) nofun
  · refine leaves h.queue rfl hmem nofun queued_injective fun wc' => ?_
    rw [hq, List.mem_cons]
    constructor
    · exact fun hin => ⟨Or.inr hin, fun he => hnotin (he ▸ hin)⟩
    · exact fun hin => hin.1.resolve_left hin.2
  · exact arrives (b := (i, wc)) h.taken rfl (by rw [hst]; nofun) taken_injective
      (comes_to rfl (by rw [ht]; rfl) rfl)
  · exact h.stored_stays (by rw [ht]; rfl) (by rw [hst]; nofun) nofun

/-- `success.store`: the token is that of a thread that waits. -/
theorem Staged.setSuccess (h : Staged s stage) (ht : s.thread i = .setSuccess r wc) :
    Staged { s.goto i (.setCompleted r wc) with
      token := update s.token wc.request.token
        { s.token wc.request.token with success := wc.success } }
      (update stage wc.request.owner (.stored i wc)) := by
  have hst : stage wc.request.owner = .taken i wc := (h.taken (i, wc)).mp (by rw [ht]; rfl)
  have htold := h.told wc.request.owner
  rw [hst] at htold
  refine Moves.staged i (.setCompleted r wc) h ⟨rfl, Or.inl ⟨?_, ?_⟩, ⟨?_, htold.2⟩,
    ?_, nofun, fun p hp => update_of_ne (fun he => ?_) _ _, fun _ => id⟩
    h.posted_nodup ?_ h.queue_nodup ?_ ?_ ?_
  · rw [hst]
    rfl
  · rw [ht]
    rfl
  · dsimp only
    rw [update_self, htold.1]
  · intro r' hr'
    exact h.own i r' (by rw [ht]; exact hr')
  · cases hp (congrArg Prod.fst he)
  · exact stays h.posted (by rw [hst]; nofun) nofun
  · exact stays h.queue (by rw [hst]; nofun) nofun
  · exact leaves (b := (i, wc)) h.taken rfl (by rw [ht]; rfl) nofun taken_injective
      (gives_up rfl (by rw [ht]; rfl) rfl)
  · exact arrives (b := (i, wc)) h.stored rfl (by rw [hst]; nofun) stored_injective
      (comes_to rfl (by rw [ht]; rfl) rfl)

/-- `completed.store`, the last that is done to the token. -/
theorem Staged.setCompleted (h : Staged s stage) (ht : s.thread i = .setCompleted r wc) :
    Staged { s.goto i (.wait r) with
      token := update s.token wc.request.token
        { s.token wc.request.token with completed := true } }
      (update stage wc.request.owner (.done wc)) := by
  have hst : stage wc.request.owner = .stored i wc := (h.stored (i, wc)).mp (by rw [ht]; rfl)
  have htold := h.told wc.request.owner
  rw [hst] at htold
  refine Moves.staged i (.wait r) h ⟨rfl, Or.inl ⟨?_, ?_⟩, ⟨?_, htold.2⟩, ?_, nofun,
    fun p hp => update_of_ne (fun he => ?_) _ _, fun _ => id⟩
    h.posted_nodup ?_ h.queue_nodup ?_ ?_ ?_
  · rw [hst]
    rfl
  · rw [ht]
    rfl
  · dsimp only
    rw [update_self, htold.1]
  · intro r' hr'
    exact h.own i r' (by rw [ht]; exact hr')
  · cases hp (congrArg Prod.fst he)
  · exact stays h.posted (by rw [hst]; nofun) nofun
  · exact stays h.queue (by rw [hst]; nofun) nofun
  · exact h.taken_stays (by rw [ht]; rfl) (by rw [hst]; nofun) nofun
  · exact leaves (b := (i, wc)) h.stored rfl (by rw [ht]; rfl) nofun stored_injective
      (gives_up rfl (by rw [ht]; rfl) rfl)

omit [DecidableEq ι] in
/-- A token that is complete is so by the thread's own request. -/
theorem Staged.done (h : Staged s stage) (ht : (s.thread i).waiting = some r)
    (hdone : (s.token r.token).completed = true) : ∃ wc, stage i = .done wc ∧ wc.request = r := by
  have hreq := (h.waiting i).symm.trans ht
  have htold := h.told i
  cases hst : stage i with
  | idle => rw [hst] at hreq; cases hreq
  | posted r' =>
    rw [hst] at hreq htold
    cases hreq
    cases hdone.symm.trans htold
  | queued wc | taken j wc =>
    rw [hst] at hreq htold
    cases hreq
    cases hdone.symm.trans htold.1
  | stored j wc =>
    rw [hst] at hreq htold
    cases hreq
    rw [htold.1] at hdone
    cases hdone
  | done wc =>
    rw [hst] at hreq
    exact ⟨wc, rfl, Option.some.inj hreq⟩

/-- `waitUntilCompleted` returns. -/
theorem Staged.leave {returned : List (Completion ι)} (h : Staged s stage)
    (ht : s.thread i = .wait r) (hdone : (s.token r.token).completed = true) :
    Staged { s.goto i .idle with returned } (update stage i .idle) := by
  obtain ⟨wc, hst, -⟩ := h.done (by rw [ht]; rfl) hdone
  refine Moves.staged i .idle h ⟨rfl, Or.inr ⟨rfl, rfl⟩, trivial, nofun, nofun,
    fun _ _ => rfl, fun _ => id⟩ h.posted_nodup ?_ h.queue_nodup ?_ ?_ ?_
  · exact stays h.posted (by rw [hst]; nofun) nofun
  · exact stays h.queue (by rw [hst]; nofun) nofun
  · exact h.taken_stays (by rw [ht]; rfl) (by rw [hst]; nofun) nofun
  · exact h.stored_stays (by rw [ht]; rfl) (by rw [hst]; nofun) nofun

theorem Staged.next (h : Staged s stage) (hs : s.next i = some s') : ∃ stage', Staged s' stage' := by
  unfold State.next at hs
  cases ht : s.thread i with
  | idle =>
    rw [ht] at hs
    cases hs
  | reset r =>
    rw [ht] at hs
    cases hs
    have howner : r.owner = i := h.own i r (by rw [ht]; rfl)
    refine ⟨stage, h.quiet ht rfl rfl rfl rfl rfl rfl rfl ?_ (fun p hp => ?_) nofun⟩
    · intro r' hr'
      rw [← Option.some.inj hr', howner]
    · refine update_of_ne (fun he => hp ?_ rfl) _ _
      rw [he]
      exact howner
  | clear r =>
    rw [ht] at hs
    cases hs
    have howner : r.owner = i := h.own i r (by rw [ht]; rfl)
    refine ⟨stage, h.quiet ht rfl rfl rfl rfl rfl rfl rfl ?_ (fun p hp => ?_) fun r' hr' => ?_⟩
    · intro r' hr'
      rw [← Option.some.inj hr', howner]
    · refine update_of_ne (fun he => hp ?_ rfl) _ _
      rw [he]
      exact howner
    · cases hr'
      dsimp only
      rw [update_self]
  | post r =>
    rw [ht] at hs
    cases hs
    exact ⟨_, h.post ht⟩
  | wait r =>
    rw [ht] at hs
    dsimp only at hs
    split at hs <;> cases hs
    · rename_i hdone
      exact ⟨_, h.leave ht hdone⟩
    · exact ⟨stage, h.quiet ht rfl rfl rfl rfl rfl rfl rfl
        (fun r' hr' => h.own i r' (by rw [ht]; exact hr')) (fun _ _ => rfl) nofun⟩
  | poll r =>
    rw [ht] at hs
    dsimp only at hs
    split at hs <;> cases hs
    · exact ⟨stage, h.quiet ht rfl rfl rfl rfl rfl rfl rfl
        (fun r' hr' => h.own i r' (by rw [ht]; exact hr')) (fun _ _ => rfl) nofun⟩
    · rename_i hq
      exact ⟨_, h.take ht hq⟩
  | setSuccess r wc =>
    rw [ht] at hs
    cases hs
    exact ⟨_, h.setSuccess ht⟩
  | setCompleted r wc =>
    rw [ht] at hs
    cases hs
    exact ⟨_, h.setCompleted ht⟩

/-- **One step** brings a request from one stage to the next, or none. -/
theorem Staged.step (h : Staged s stage) (hs : Completions.step s e = some s') :
    ∃ stage', Staged s' stage' := by
  cases e with
  | call i slot =>
    simp only [Completions.step] at hs
    split at hs <;> cases hs
    rename_i ht
    refine ⟨stage, h.quiet ht rfl rfl rfl rfl rfl rfl rfl ?_ (fun _ _ => rfl) nofun⟩
    intro r hr
    cases hr
    rfl
  | next i => exact h.next hs
  | finish r success =>
    simp only [Completions.step] at hs
    split at hs <;> cases hs
    rename_i hr
    exact ⟨_, h.finish hr⟩

omit [DecidableEq ι] in
theorem start_staged (token : ι × Nat → Token) :
    Staged (State.start token : State ι) fun _ => .idle where
  posted_nodup := .nil
  posted r := iff_of_false (List.not_mem_nil) nofun
  queue_nodup := .nil
  queue wc := iff_of_false (List.not_mem_nil) nofun
  taken p := iff_of_false nofun nofun
  stored p := iff_of_false nofun nofun
  waiting _ := rfl
  told _ := trivial
  own _ _ hr := by cases hr
  cleared _ _ hr := by cases hr

end ConcurrentComputing.Completions
