import ConcurrentComputing.Completions

/-! # Every wait finds its own request

A call of `waitUntilCompleted` returns once, with the status of the request it has
posted, whoever takes the completion from the queue; and it does return. -/

namespace ConcurrentComputing.Completions

open Runs Function

variable {ι : Type} [DecidableEq ι] {s s' : State ι} {stage : ι → Stage ι} {i j : ι}
  {r : Request ι} {wc : Completion ι} {e : Event ι}

/-! ## Numbers -/

/-- What a step of a thread leaves as it is. -/
structure Advances (s s' : State ι) (i : ι) : Prop where
  thread : ∃ pc', s'.thread = update s.thread i pc' ∧ (pc' = .idle ∨
    (pc'.request = (s.thread i).request ∧ (pc'.waiting = none → (s.thread i).waiting = none)))
  posted : s'.posted = s.posted ∨ ∃ r, s.thread i = .post r ∧ s'.posted = s.posted ++ [r]
  count : s'.count = s.count
  finished : s'.finished = s.finished

theorem next_advances (hs : s.next i = some s') : Advances s s' i := by
  unfold State.next at hs
  cases ht : s.thread i with
  | idle => rw [ht] at hs; cases hs
  | reset r | clear r =>
    rw [ht] at hs
    cases hs
    exact ⟨⟨_, rfl, Or.inr ⟨by rw [ht]; rfl, fun _ => by rw [ht]; rfl⟩⟩, Or.inl rfl, rfl, rfl⟩
  | post r =>
    rw [ht] at hs
    cases hs
    exact ⟨⟨_, rfl, Or.inr ⟨by rw [ht]; rfl, nofun⟩⟩, Or.inr ⟨r, ht, rfl⟩, rfl, rfl⟩
  | wait r =>
    rw [ht] at hs
    dsimp only at hs
    split at hs <;> cases hs
    · exact ⟨⟨_, rfl, Or.inl rfl⟩, Or.inl rfl, rfl, rfl⟩
    · exact ⟨⟨_, rfl, Or.inr ⟨by rw [ht]; rfl, nofun⟩⟩, Or.inl rfl, rfl, rfl⟩
  | poll r =>
    rw [ht] at hs
    dsimp only at hs
    split at hs <;> cases hs <;>
    exact ⟨⟨_, rfl, Or.inr ⟨by rw [ht]; rfl, nofun⟩⟩, Or.inl rfl, rfl, rfl⟩
  | setSuccess r wc | setCompleted r wc =>
    rw [ht] at hs
    cases hs
    exact ⟨⟨_, rfl, Or.inr ⟨by rw [ht]; rfl, nofun⟩⟩, Or.inl rfl, rfl, rfl⟩

/-- No two threads have requests of the same number, and no request is finished
twice. -/
structure Numbered (s : State ι) : Prop where
  lt : ∀ i r, (s.thread i).request = some r → r.number < s.count
  apart : ∀ i j r r', (s.thread i).request = some r → (s.thread j).request = some r' →
    r.number = r'.number → i = j
  finished_lt : ∀ wc ∈ s.finished, wc.request.number < s.count
  unfinished : ∀ i r, (s.thread i).request = some r → (s.thread i).waiting = none ∨ r ∈ s.posted →
    ∀ wc ∈ s.finished, wc.request.number ≠ r.number
  once : (s.finished.map fun wc => wc.request.number).Nodup

theorem Numbered.next (h : Numbered s) (hst : Staged s stage) (hs : s.next i = some s') :
    Numbered s' := by
  obtain ⟨⟨pc', hthread, hpc⟩, hposted, hcount, hfinished⟩ := next_advances hs
  have hrequest : ∀ j r, (s'.thread j).request = some r → (s.thread j).request = some r := by
    intro j r hr
    rw [hthread] at hr
    by_cases hj : j = i
    · rw [hj, update_self] at hr
      rcases hpc with rfl | ⟨hsame, -⟩
      · cases hr
      · rw [hj, ← hsame, hr]
    · rwa [update_of_ne hj] at hr
  have hopen : ∀ j r, (s'.thread j).request = some r →
      (s'.thread j).waiting = none ∨ r ∈ s'.posted →
        (s.thread j).waiting = none ∨ r ∈ s.posted := by
    intro j r hr hor
    rcases hor with hnone | hmem
    · refine Or.inl ?_
      rw [hthread] at hnone hr
      by_cases hj : j = i
      · rw [hj, update_self] at hnone hr
        rcases hpc with rfl | ⟨-, hw⟩
        · cases hr
        · rw [hj]
          exact hw hnone
      · rwa [update_of_ne hj] at hnone
    · rcases hposted with he | ⟨r₀, ht, he⟩
      · exact Or.inr (he ▸ hmem)
      · rw [he] at hmem
        rcases List.mem_append.mp hmem with hmem | hmem
        · exact Or.inr hmem
        · -- the request that is posted now is that of the thread
          have h₀ : r.owner = i := by
            rw [List.mem_singleton.mp hmem]
            exact hst.own i r₀ (by rw [ht]; rfl)
          have hj : j = i := (hst.own j r (hrequest j r hr)).symm.trans h₀
          rw [hj, ht]
          exact Or.inl rfl
  refine ⟨fun j r hr => ?_, fun j k r r' hr hr' => ?_, ?_, fun j r hr hor => ?_, ?_⟩
  · rw [hcount]
    exact h.lt j r (hrequest j r hr)
  · exact h.apart j k r r' (hrequest j r hr) (hrequest k r' hr')
  · rw [hfinished, hcount]
    exact h.finished_lt
  · rw [hfinished]
    exact h.unfinished j r (hrequest j r hr) (hopen j r hr hor)
  · rw [hfinished]
    exact h.once

theorem Numbered.finish {success : Bool} (h : Numbered s) (hst : Staged s stage)
    (hr : r ∈ s.posted) : Numbered { s with
      posted := s.posted.erase r
      queue := s.queue ++ [⟨r, success⟩]
      finished := s.finished ++ [⟨r, success⟩] } := by
  have hmine : (s.thread r.owner).request = some r := by
    refine Pc.request_of_waiting ((hst.waiting r.owner).trans ?_)
    rw [(hst.posted r).mp hr]
    rfl
  refine ⟨h.lt, h.apart, fun wc hwc => ?_, fun j r' hr' hor wc hwc => ?_, ?_⟩
  · rcases List.mem_append.mp hwc with hwc | hwc
    · exact h.finished_lt wc hwc
    · rw [List.mem_singleton.mp hwc]
      exact h.lt _ r hmine
  · have hold : (s.thread j).waiting = none ∨ r' ∈ s.posted := hor.imp_right List.mem_of_mem_erase
    rcases List.mem_append.mp hwc with hwc | hwc
    · exact h.unfinished j r' hr' hold wc hwc
    · rw [List.mem_singleton.mp hwc]
      intro hnumber
      have hj : r.owner = j := h.apart _ j r r' hmine hr' hnumber
      have hsame : r = r' := Option.some.inj (hmine.symm.trans (hj ▸ hr'))
      rcases hor with hnone | hmem
      · have hwaiting := hst.waiting r.owner
        rw [(hst.posted r).mp hr, hj, hnone] at hwaiting
        cases hwaiting
      · exact (hst.posted_nodup.mem_erase_iff.mp hmem).1 hsame.symm
  · rw [List.map_append, List.nodup_append]
    refine ⟨h.once, List.pairwise_singleton _ _, fun a ha b hb => ?_⟩
    obtain ⟨wc, hwc, rfl⟩ := List.mem_map.mp ha
    rw [List.mem_singleton.mp hb]
    exact h.unfinished _ r hmine (Or.inr hr) wc hwc

theorem Numbered.call {slot : Nat} (h : Numbered s) :
    Numbered { s.goto i (.reset ⟨i, slot, s.count⟩) with count := s.count + 1 } := by
  have hcases : ∀ j r, (update s.thread i (.reset ⟨i, slot, s.count⟩) j).request = some r →
      (j = i ∧ r.number = s.count) ∨ (j ≠ i ∧ (s.thread j).request = some r) := by
    intro j r hr
    by_cases hj : j = i
    · rw [hj, update_self] at hr
      exact Or.inl ⟨hj, by rw [← Option.some.inj hr]⟩
    · rw [update_of_ne hj] at hr
      exact Or.inr ⟨hj, hr⟩
  refine ⟨fun j r hr => ?_, fun j k r r' hr hr' hnumber => ?_,
    fun wc hwc => Nat.lt_succ_of_lt (h.finished_lt wc hwc), fun j r hr hor wc hwc => ?_, h.once⟩
  · rcases hcases j r hr with ⟨-, he⟩ | ⟨-, hr⟩
    · exact Nat.lt_succ_of_le (Nat.le_of_eq he)
    · exact Nat.lt_succ_of_lt (h.lt j r hr)
  · rcases hcases j r hr with ⟨hj, he⟩ | ⟨-, hold⟩ <;>
    rcases hcases k r' hr' with ⟨hk, he'⟩ | ⟨-, hold'⟩
    · rw [hj, hk]
    · exact absurd (hnumber.symm.trans he) (Nat.ne_of_lt (h.lt k r' hold'))
    · exact absurd (hnumber.trans he') (Nat.ne_of_lt (h.lt j r hold))
    · exact h.apart j k r r' hold hold' hnumber
  · rcases hcases j r hr with ⟨-, he⟩ | ⟨hj, hr⟩
    · rw [he]
      exact Nat.ne_of_lt (h.finished_lt wc hwc)
    · refine h.unfinished j r hr (hor.imp_left fun hnone => ?_) wc hwc
      dsimp only [State.goto] at hnone
      rwa [update_of_ne hj] at hnone

omit [DecidableEq ι] in
theorem start_numbered (token : ι × Nat → Token) : Numbered (State.start token : State ι) where
  lt _ _ hr := by cases hr
  apart _ _ _ _ hr := by cases hr
  finished_lt := nofun
  unfinished _ _ hr := by cases hr
  once := .nil

theorem Numbered.step (h : Numbered s) (hst : Staged s stage)
    (hs : Completions.step s e = some s') : Numbered s' := by
  cases e with
  | call i slot =>
    simp only [Completions.step] at hs
    split at hs <;> cases hs
    exact h.call
  | next i => exact h.next hst hs
  | finish r success =>
    simp only [Completions.step] at hs
    split at hs <;> cases hs
    rename_i hr
    exact h.finish hst hr

/-! ## Runs -/

/-- The calls that have returned have found what the device has finished. -/
theorem returned_step (h : ∀ wc ∈ s.returned, wc ∈ s.finished) (hst : Staged s stage)
    (hs : step s e = some s') : ∀ wc ∈ s'.returned, wc ∈ s'.finished := by
  cases e with
  | call i slot =>
    simp only [step] at hs
    split at hs <;> cases hs
    exact h
  | finish r success =>
    simp only [step] at hs
    split at hs <;> cases hs
    exact fun wc hwc => List.mem_append_left _ (h wc hwc)
  | next i =>
    change s.next i = some s' at hs
    unfold State.next at hs
    cases ht : s.thread i with
    | idle => rw [ht] at hs; cases hs
    | reset r | clear r | post r | setSuccess r wc | setCompleted r wc =>
      rw [ht] at hs
      cases hs
      exact h
    | wait r =>
      rw [ht] at hs
      dsimp only at hs
      split at hs <;> cases hs
      · rename_i hdone
        obtain ⟨wc, hwc, rfl⟩ := hst.done (by rw [ht]; rfl) hdone
        have htold := hst.told i
        rw [hwc] at htold
        intro wc' hwc'
        rcases List.mem_append.mp hwc' with hwc' | hwc'
        · exact h wc' hwc'
        · rw [List.mem_singleton.mp hwc', htold.1]
          exact htold.2
      · exact h
    | poll r =>
      rw [ht] at hs
      dsimp only at hs
      split at hs <;> cases hs <;> exact h

/-- What can be said of every state of every run. -/
structure Sound (s : State ι) : Prop where
  /-- A call returns with the status of its own request. -/
  returned : ∀ wc ∈ s.returned, wc ∈ s.finished
  once : (s.finished.map fun wc => wc.request.number).Nodup
  /-- A token is written only while its owner waits for that request. -/
  writes : ∀ j wc, (s.thread j).taken = some wc ∨ (s.thread j).stored = some wc →
    (s.thread wc.request.owner).waiting = some wc.request ∧
      (s.token wc.request.token).completed = false
  /-- No completion is lost. -/
  somewhere : ∀ i r, (s.thread i).waiting = some r → (s.token r.token).completed = true ∨
    r ∈ s.posted ∨ ∃ wc, wc.request = r ∧
      (wc ∈ s.queue ∨ ∃ j, (s.thread j).taken = some wc ∨ (s.thread j).stored = some wc)
  /-- A thread has one request at most on its way. -/
  single : (s.posted.map Request.owner ++ s.queue.map fun wc => wc.request.owner).Nodup

omit [DecidableEq ι] in
theorem Staged.held (h : Staged s stage)
    (hwc : (s.thread j).taken = some wc ∨ (s.thread j).stored = some wc) :
    (stage wc.request.owner).request = some wc.request ∧
      (s.token wc.request.token).completed = false := by
  have htold := h.told wc.request.owner
  rcases hwc with hwc | hwc
  · rw [(h.taken (j, wc)).mp hwc] at htold ⊢
    exact ⟨rfl, htold.1⟩
  · rw [(h.stored (j, wc)).mp hwc] at htold ⊢
    exact ⟨rfl, by rw [htold.1]⟩

omit [DecidableEq ι] in
theorem Staged.somewhere (h : Staged s stage) (hr : (s.thread i).waiting = some r) :
    (s.token r.token).completed = true ∨ r ∈ s.posted ∨ ∃ wc, wc.request = r ∧
      (wc ∈ s.queue ∨ ∃ j, (s.thread j).taken = some wc ∨ (s.thread j).stored = some wc) := by
  have hreq := (h.waiting i).symm.trans hr
  have howner := h.owner hreq
  have htold := h.told i
  cases hst : stage i with
  | idle => rw [hst] at hreq; cases hreq
  | posted r' =>
    rw [hst] at hreq
    cases hreq
    exact Or.inr (Or.inl ((h.posted r).mpr (howner ▸ hst)))
  | queued wc =>
    rw [hst] at hreq
    cases hreq
    exact Or.inr (Or.inr ⟨wc, rfl, Or.inl ((h.queue wc).mpr (howner ▸ hst))⟩)
  | taken j wc =>
    rw [hst] at hreq
    cases hreq
    exact Or.inr (Or.inr ⟨wc, rfl, Or.inr ⟨j, Or.inl ((h.taken (j, wc)).mpr (howner ▸ hst))⟩⟩)
  | stored j wc =>
    rw [hst] at hreq
    cases hreq
    exact Or.inr (Or.inr ⟨wc, rfl, Or.inr ⟨j, Or.inr ((h.stored (j, wc)).mpr (howner ▸ hst))⟩⟩)
  | done wc =>
    rw [hst] at hreq htold
    cases hreq
    exact Or.inl (by rw [htold.1])

omit [DecidableEq ι] in
theorem Staged.single (h : Staged s stage) :
    (s.posted.map Request.owner ++ s.queue.map fun wc => wc.request.owner).Nodup := by
  refine List.nodup_append.mpr ⟨?_, ?_, fun a ha b hb => ?_⟩
  · refine List.Nodup.map_on (fun r hr r' hr' he => ?_) h.posted_nodup
    have hst := (h.posted r).mp hr
    rw [he, (h.posted r').mp hr'] at hst
    exact (Stage.posted.inj hst).symm
  · refine List.Nodup.map_on (fun wc hwc wc' hwc' he => ?_) h.queue_nodup
    have hst := (h.queue wc).mp hwc
    rw [he, (h.queue wc').mp hwc'] at hst
    exact (Stage.queued.inj hst).symm
  · obtain ⟨r, hr, rfl⟩ := List.mem_map.mp ha
    obtain ⟨wc, hwc, rfl⟩ := List.mem_map.mp hb
    intro he
    have hst := (h.posted r).mp hr
    rw [he, (h.queue wc).mp hwc] at hst
    cases hst

/-- The requests and what is known of them. -/
def Good (s : State ι) : Prop :=
  (∃ stage, Staged s stage) ∧ Numbered s ∧ ∀ wc ∈ s.returned, wc ∈ s.finished

theorem run_good {token : ι × Nat → Token} {es : List (Event ι)}
    (h : exec step (.start token) es = some s) : Good s := by
  refine exec_invariant (I := Good)
    ⟨⟨_, start_staged token⟩, start_numbered token, nofun⟩ (fun u e v hu hs => ?_) h
  obtain ⟨⟨stage, hst⟩, hnum, hret⟩ := hu
  exact ⟨hst.step hs, hnum.step hst hs, returned_step hret hst hs⟩

/-- **Waiting is sound.** In every run of any threads over one context a call returns
with the status of its own request, finished by the device and found once; a thread
writes the token of another only while that one waits for this very request, so never
after its call has returned; and a completion is with the device, in the queue or with
one thread until the token says it. -/
theorem waiting_sound {token : ι × Nat → Token} {es : List (Event ι)}
    (h : exec step (.start token) es = some s) : Sound s := by
  obtain ⟨⟨stage, hst⟩, hnum, hret⟩ := run_good h
  refine ⟨hret, hnum.once, fun j wc hwc => ?_, fun i r hr => hst.somewhere hr, hst.single⟩
  obtain ⟨hreq, hopen⟩ := hst.held hwc
  exact ⟨(hst.waiting _).trans hreq, hopen⟩

/-- The completion of the second thread comes first, and the first thread takes it; the
second returns without having looked at the queue. -/
def crossed : List (Event Bool) :=
  [.call true 0, .call false 3] ++ List.replicate 5 (.next true) ++ List.replicate 3 (.next false) ++
    [.finish ⟨false, 3, 1⟩ true, .finish ⟨true, 0, 0⟩ false] ++ List.replicate 4 (.next true) ++
    [.next false] ++ List.replicate 5 (.next true)

theorem waiting_sound_crossed : ∃ s,
    exec step (.start fun _ => ⟨true, true⟩) crossed = some s ∧
    s.returned = [⟨⟨false, 3, 1⟩, true⟩, ⟨⟨true, 0, 0⟩, false⟩] ∧ Sound s := by
  have hrun : (exec step (.start fun _ => ⟨true, true⟩) crossed).map State.returned =
      some [⟨⟨false, 3, 1⟩, true⟩, ⟨⟨true, 0, 0⟩, false⟩] := by
    decide
  obtain ⟨s, hs, hreturned⟩ := Option.map_eq_some_iff.mp hrun
  exact ⟨s, hs, hreturned, waiting_sound hs⟩

/-! ## Progress -/

/-- No thread but `i` has the completion of its request. -/
def Unheld (s : State ι) (i : ι) (r : Request ι) : Prop :=
  ∀ j wc, j ≠ i → (s.thread j).taken = some wc ∨ (s.thread j).stored = some wc → wc.request ≠ r

/-- How many steps of its own a thread that waits has to take at most. -/
def State.left (s : State ι) (i : ι) : Nat :=
  match s.thread i with
  | .wait r => if (s.token r.token).completed then 1 else 4 * s.queue.length + 3
  | .poll _ => 4 * s.queue.length + 2
  | .setSuccess .. => 4 * s.queue.length + 5
  | .setCompleted .. => 4 * s.queue.length + 4
  | _ => 0

omit [DecidableEq ι] in
theorem left_of_completed (ht : s.thread i = .wait r)
    (hdone : (s.token r.token).completed = true) : s.left i = 1 := by
  rw [State.left, ht]
  exact if_pos hdone

theorem goto_thread (s : State ι) (i : ι) (pc : Pc ι) : (s.goto i pc).thread i = pc :=
  update_self ..

omit [DecidableEq ι] in
/-- In the loop of `waitUntilCompleted`, with the request done and nobody else holding its
completion. -/
structure Ready (s : State ι) (i : ι) (r : Request ι) : Prop where
  staged : ∃ stage, Staged s stage
  waiting : (s.thread i).waiting = some r
  posted : r ∉ s.posted
  unheld : Unheld s i r

omit [DecidableEq ι] in
/-- A thread that holds no completion finds its own in the queue, or its token told. -/
theorem Ready.here (h : Ready s i r) (htaken : (s.thread i).taken = none)
    (hstored : (s.thread i).stored = none) :
    (s.token r.token).completed = true ∨ s.queue ≠ [] := by
  obtain ⟨stage, hst⟩ := h.staged
  rcases hst.somewhere h.waiting with hdone | hposted | ⟨wc, hwc, hplace⟩
  · exact Or.inl hdone
  · exact absurd hposted h.posted
  · rcases hplace with hmem | ⟨j, hj⟩
    · exact Or.inr (List.ne_nil_of_mem hmem)
    · by_cases hji : j = i
      · rw [hji, htaken, hstored] at hj
        rcases hj with hj | hj <;> cases hj
      · exact absurd hwc (h.unheld j wc hji hj)

theorem Ready.keep (h : Ready s i r) (hs : s.next i = some s')
    (hwaiting : (s'.thread i).waiting = some r) : Ready s' i r := by
  obtain ⟨stage, hst⟩ := h.staged
  obtain ⟨⟨pc', hthread, -⟩, hposted, -, -⟩ := next_advances hs
  refine ⟨hst.next hs, hwaiting, ?_, fun j wc hj hwc => ?_⟩
  · rcases hposted with he | ⟨r', ht, -⟩
    · rw [he]
      exact h.posted
    · have hw := h.waiting
      rw [ht] at hw
      cases hw
  · rw [hthread, update_of_ne hj] at hwc
    exact h.unheld j wc hj hwc

/-- The call is at its end, or nearer to it. -/
theorem Ready.next (h : Ready s i r) : ∃ s', s.next i = some s' ∧
    ((s'.thread i = .idle ∧ ∃ success, s'.returned = s.returned ++ [⟨r, success⟩]) ∨
      (Ready s' i r ∧ s'.returned = s.returned ∧ s'.left i < s.left i)) := by
  have hw := h.waiting
  cases ht : s.thread i with
  | idle | reset r' | clear r' | post r' => rw [ht] at hw; cases hw
  | wait r' =>
    rw [ht] at hw
    obtain rfl := Option.some.inj hw
    by_cases hdone : (s.token r'.token).completed = true
    · have hs : s.next i = some { s.goto i .idle with
          returned := s.returned ++ [⟨r', (s.token r'.token).success⟩] } := by
        rw [State.next, ht]
        exact if_pos hdone
      exact ⟨_, hs, Or.inl ⟨update_self .., _, rfl⟩⟩
    · have hs : s.next i = some (s.goto i (.poll r')) := by
        rw [State.next, ht]
        exact if_neg hdone
      refine ⟨_, hs, Or.inr ⟨h.keep hs ?_, rfl, ?_⟩⟩
      · dsimp only [State.goto]
        rw [update_self]
        rfl
      · simp only [State.left, State.goto, update_self, ht, if_neg hdone]
        omega
  | poll r' =>
    rw [ht] at hw
    obtain rfl := Option.some.inj hw
    cases hq : s.queue with
    | nil =>
      have hdone := (h.here (by rw [ht]; rfl) (by rw [ht]; rfl)).resolve_right (not_not.mpr hq)
      have hs : s.next i = some (s.goto i (.wait r')) := by
        rw [State.next, ht]
        dsimp only
        rw [hq]
      refine ⟨_, hs, Or.inr ⟨h.keep hs ?_, rfl, ?_⟩⟩
      · dsimp only [State.goto]
        rw [update_self]
        rfl
      · rw [left_of_completed (goto_thread ..) hdone, State.left, ht]
        exact Nat.lt_add_left _ (by decide)
    | cons wc rest =>
      have hs : s.next i = some { s.goto i (.setSuccess r' wc) with queue := rest } := by
        rw [State.next, ht]
        dsimp only
        rw [hq]
      refine ⟨_, hs, Or.inr ⟨h.keep hs ?_, rfl, ?_⟩⟩
      · dsimp only [State.goto]
        rw [update_self]
        rfl
      · simp only [State.left, State.goto, update_self, ht, hq, List.length_cons]
        omega
  | setSuccess r' wc =>
    have hs : s.next i = some { s.goto i (.setCompleted r' wc) with
        token := update s.token wc.request.token
          { s.token wc.request.token with success := wc.success } } := by
      rw [State.next, ht]
    rw [ht] at hw
    refine ⟨_, hs, Or.inr ⟨h.keep hs ?_, rfl, ?_⟩⟩
    · dsimp only [State.goto]
      rw [update_self]
      exact hw
    · simp only [State.left, State.goto, update_self, ht]
      omega
  | setCompleted r' wc =>
    have hs : s.next i = some { s.goto i (.wait r') with
        token := update s.token wc.request.token
          { s.token wc.request.token with completed := true } } := by
      rw [State.next, ht]
    rw [ht] at hw
    refine ⟨_, hs, Or.inr ⟨h.keep hs ?_, rfl, ?_⟩⟩
    · dsimp only [State.goto]
      rw [update_self]
      exact hw
    · simp only [State.left, State.goto, update_self, ht]
      split <;> omega

theorem Ready.returns : ∀ {n : Nat} {s : State ι}, Ready s i r → s.left i ≤ n →
    ∃ k ≤ n, ∃ s' success, exec step s (List.replicate k (.next i)) = some s' ∧
      s'.thread i = .idle ∧ s'.returned = s.returned ++ [⟨r, success⟩] := by
  intro n
  induction n with
  | zero =>
    intro s h hleft
    have hw := h.waiting
    unfold State.left at hleft
    cases ht : s.thread i with
    | idle | reset r' | clear r' | post r' => rw [ht] at hw; cases hw
    | wait r' =>
      rw [ht] at hleft
      dsimp only at hleft
      split at hleft <;> omega
    | poll r' | setSuccess r' wc | setCompleted r' wc =>
      rw [ht] at hleft
      dsimp only at hleft
      omega
  | succ n ih =>
    intro s h hleft
    obtain ⟨s', hs, ⟨hidle, success, hret⟩ | ⟨hready, hret, hless⟩⟩ := h.next
    · exact ⟨1, by omega, s', success, exec_cons.mpr ⟨s', hs, rfl⟩, hidle, hret⟩
    · obtain ⟨k, hk, v, success, hrun, hidle, hv⟩ := ih hready (by omega)
      exact ⟨k + 1, by omega, v, success, exec_cons.mpr ⟨s', hs, hrun⟩, hidle, hret ▸ hv⟩

/-- **Waiting ends.** In every state of every run, a thread whose request the device has
finished returns by steps of its own, at most four for each completion in the queue and
five more, unless another thread has taken the completion and not told it. -/
theorem waiting_ends {token : ι × Nat → Token} {es : List (Event ι)}
    (h : exec step (.start token) es = some s) (hw : (s.thread i).waiting = some r)
    (hr : r ∉ s.posted) (hheld : Unheld s i r) : ∃ k ≤ 4 * s.queue.length + 5, ∃ s' success,
      exec step s (List.replicate k (.next i)) = some s' ∧ s'.thread i = .idle ∧
      s'.returned = s.returned ++ [⟨r, success⟩] := by
  refine Ready.returns ⟨(run_good h).1, hw, hr, hheld⟩ ?_
  unfold State.left
  split <;> try omega
  split <;> omega

theorem waiting_ends_behind : ∃ s : State Bool, exec step (.start fun _ => ⟨true, true⟩)
      (crossed.take 12) = some s ∧ s.queue.length = 2 ∧
    ∃ k ≤ 13, ∃ s' success, exec step s (List.replicate k (.next true)) = some s' ∧
      s'.thread true = .idle ∧ s'.returned = s.returned ++ [⟨⟨true, 0, 0⟩, success⟩] := by
  have hrun : (exec step (.start fun _ => ⟨true, true⟩) (crossed.take 12)).map (fun s =>
      (s.thread true, s.thread false, s.posted, s.queue.length)) =
        some (.wait ⟨true, 0, 0⟩, .wait ⟨false, 3, 1⟩, [], 2) := by
    decide
  obtain ⟨s, hs, hread⟩ := Option.map_eq_some_iff.mp hrun
  obtain ⟨htrue, hrest⟩ := Prod.mk.inj hread
  obtain ⟨hfalse, hrest⟩ := Prod.mk.inj hrest
  obtain ⟨hposted, hlen⟩ := Prod.mk.inj hrest
  have hends := waiting_ends (i := true) (r := ⟨true, 0, 0⟩) hs (by rw [htrue]; rfl)
    (by rw [hposted]; exact List.not_mem_nil) fun j wc hj hwc => by
      obtain rfl : j = false := by simpa using hj
      rw [hfalse] at hwc
      rcases hwc with hwc | hwc <;> cases hwc
  rw [hlen] at hends
  exact ⟨s, hs, hlen, hends⟩

end ConcurrentComputing.Completions
