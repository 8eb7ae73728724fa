import ConcurrentComputing.Runs
import Mathlib.Data.Finset.Prod
import Mathlib.Data.Finset.Lattice.Basic

/-! # Client programs over shared lock words

Any number of clients run programs that draw random numbers, compare-and-swap
shared words and send messages. A word is a lock: won by a swap of 0 for 1, given
up by one of 1 for 0. A section is a set of words that a client must own together
to be inside; a program says where it enters and leaves one, which takes no step.

`Safe` is what a program has to keep to: it gives up only words it owns, enters a
section only when it owns all its words, at every step inside one still owns some,
and sends from inside one. The main result is that clients whose programs are safe exclude each other:
each word is 1 exactly while one client owns it, and no two are inside one
section. -/

namespace ConcurrentComputing.LockClients

open Runs Function

abbrev Word64 := BitVec 64

/-- A program that returns an `α`. -/
inductive Prog (W B μ α : Type) where
  | ret (a : α)
  | random (k : Nat → Prog W B μ α)
  | cas (w : W) (compare swap : Word64) (k : Word64 → Prog W B μ α)
  | send (m : μ) (k : Prog W B μ α)
  | enter (b : B) (k : Prog W B μ α)
  | leave (b : B) (k : Prog W B μ α)

namespace Prog

variable {W B μ α β : Type}

def bind : Prog W B μ α → (α → Prog W B μ β) → Prog W B μ β
  | ret a, f => f a
  | random k, f => random fun r => (k r).bind f
  | cas w compare swap k, f => cas w compare swap fun old => (k old).bind f
  | send m k, f => send m (k.bind f)
  | enter b k, f => enter b (k.bind f)
  | leave b k, f => leave b (k.bind f)

end Prog

/-- What a call has done so far: the words it has won and not given up, the
sections it is inside, the messages it has sent. -/
@[ext] structure History (W B μ : Type) where
  owned : Finset W
  inside : Finset B
  sent : List μ

variable {ι γ W B μ α β E η : Type} [DecidableEq ι] [DecidableEq W] [DecidableEq B]

namespace History

def empty : History W B μ := ⟨∅, ∅, []⟩

/-- After a compare-and-swap that found `old`. -/
def cas (h : History W B μ) (w : W) (compare swap old : Word64) : History W B μ :=
  if compare = 0 ∧ swap = 1 ∧ old = 0 then { h with owned := insert w h.owned }
  else if compare = 1 ∧ swap = 0 then { h with owned := h.owned.erase w }
  else h

def send (h : History W B μ) (m : μ) : History W B μ := { h with sent := h.sent ++ [m] }
def enter (h : History W B μ) (b : B) : History W B μ := { h with inside := insert b h.inside }
def leave (h : History W B μ) (b : B) : History W B μ := { h with inside := h.inside.erase b }

/-- Inside a section the call owns one of its words. -/
def Steady (words : B → Finset W) (h : History W B μ) : Prop :=
  ∀ b ∈ h.inside, ∃ w ∈ words b, w ∈ h.owned

end History

/-- The program may be run on from this history: before every step of it the
history is steady and `I` holds, and when it returns, `Q` does. -/
def Safe (words : B → Finset W) (I : History W B μ → Prop) (Q : α → History W B μ → Prop) :
    Prog W B μ α → History W B μ → Prop
  | .ret a, h => Q a h
  | .random k, h => h.Steady words ∧ I h ∧ ∀ r, Safe words I Q (k r) h
  | .cas w compare swap k, h => h.Steady words ∧ I h ∧
      ((compare = 0 ∧ swap = 1 ∧ Safe words I Q (k 1) h ∧
          (w ∉ h.owned → Safe words I Q (k 0) (h.cas w 0 1 0))) ∨
        (compare = 1 ∧ swap = 0 ∧ w ∈ h.owned ∧ Safe words I Q (k 1) (h.cas w 1 0 1)))
  | .send m k, h => h.Steady words ∧ I h ∧ h.inside.Nonempty ∧ Safe words I Q k (h.send m)
  | .enter b k, h => words b ⊆ h.owned ∧ Safe words I Q k (h.enter b)
  | .leave b k, h => Safe words I Q k (h.leave b)

section rules

variable {words : B → Finset W} {I : History W B μ → Prop} {Q : α → History W B μ → Prop}
  {R : β → History W B μ → Prop}

theorem Safe.bind {f : α → Prog W B μ β} : ∀ {p : Prog W B μ α} {h : History W B μ},
    Safe words I Q p h → (∀ a h', Q a h' → Safe words I R (f a) h') →
      Safe words I R (p.bind f) h
  | .ret a, h, hp, hf => hf a h hp
  | .random k, h, ⟨hs, hi, hk⟩, hf => ⟨hs, hi, fun r => (hk r).bind hf⟩
  | .cas w compare swap k, h, ⟨hs, hi, hk⟩, hf => by
    refine ⟨hs, hi, ?_⟩
    rcases hk with ⟨hc, hsw, h1, h0⟩ | ⟨hc, hsw, hw, h1⟩
    · exact Or.inl ⟨hc, hsw, h1.bind hf, fun hn => (h0 hn).bind hf⟩
    · exact Or.inr ⟨hc, hsw, hw, h1.bind hf⟩
  | .send m k, h, ⟨hs, hi, hin, hk⟩, hf => ⟨hs, hi, hin, hk.bind hf⟩
  | .enter b k, h, ⟨hb, hk⟩, hf => ⟨hb, hk.bind hf⟩
  | .leave b k, h, hk, hf => Safe.bind (p := k) hk hf

theorem Safe.mono {Q' : α → History W B μ → Prop} {p : Prog W B μ α} {h : History W B μ}
    (hp : Safe words I Q p h) (hq : ∀ a h', Q a h' → Q' a h') : Safe words I Q' p h := by
  have hbind : ∀ p : Prog W B μ α, p.bind Prog.ret = p := by
    intro p
    induction p with
    | ret a => rfl
    | random k ih => simp only [Prog.bind, ih]
    | cas w c s k ih => simp only [Prog.bind, ih]
    | send m k ih => simp only [Prog.bind, ih]
    | enter b k ih => simp only [Prog.bind, ih]
    | leave b k ih => simp only [Prog.bind, ih]
  rw [← hbind p]
  exact hp.bind hq

end rules

/-! ## The system -/

/-- A call in progress. -/
structure Running (γ W B μ α : Type) where
  call : γ
  prog : Prog W B μ α
  history : History W B μ

/-- A call that has returned. -/
structure Returned (γ W B μ α : Type) where
  call : γ
  answer : α
  history : History W B μ

structure System (ι γ W B μ α E : Type) where
  words : W → Word64
  client : ι → Option (Running γ W B μ α)
  returned : List (Returned γ W B μ α)
  env : E

inductive Event (ι γ η : Type) where
  | call (i : ι) (c : γ)
  | next (i : ι) (rand : Nat)
  | env (e : η)

/-- Entering and leaving a section takes no step of its own. -/
def settle : Prog W B μ α → History W B μ → Prog W B μ α × History W B μ
  | .enter b k, h => settle k (h.enter b)
  | .leave b k, h => settle k (h.leave b)
  | p, h => (p, h)

namespace System

def init (env : E) : System ι γ W B μ α E := ⟨fun _ => 0, fun _ => none, [], env⟩

/-- A client stops before its next step. -/
def park (s : System ι γ W B μ α E) (i : ι) (r : Running γ W B μ α) : System ι γ W B μ α E :=
  { s with client := update s.client i (some r) }

def finish (s : System ι γ W B μ α E) (i : ι) (r : Returned γ W B μ α) : System ι γ W B μ α E :=
  { s with client := update s.client i none, returned := s.returned ++ [r] }

/-- A client goes on to its next step, or returns. -/
def resume (s : System ι γ W B μ α E) (i : ι) (c : γ) (p : Prog W B μ α) (h : History W B μ) :
    System ι γ W B μ α E :=
  match settle p h with
  | (.ret a, h') => s.finish i ⟨c, a, h'⟩
  | (p', h') => s.park i ⟨c, p', h'⟩

def ownedBy (s : System ι γ W B μ α E) (i : ι) : Finset W :=
  ((s.client i).map fun r => r.history.owned).getD ∅

def insideOf (s : System ι γ W B μ α E) (i : ι) : Finset B :=
  ((s.client i).map fun r => r.history.inside).getD ∅

end System

/-- One step: a client starts a call or takes the next step of the one it is in,
or the environment, which the messages go to, takes a step. -/
def step (prog : γ → Prog W B μ α) (deliver : E → μ → E) (envStep : E → η → Option E)
    (s : System ι γ W B μ α E) : Event ι γ η → Option (System ι γ W B μ α E)
  | .call i c =>
    match s.client i with
    | none => some (s.resume i c (prog c) .empty)
    | some _ => none
  | .next i rand =>
    match s.client i with
    | none => none
    | some ⟨c, p, h⟩ =>
      match p with
      | .random k => some (s.resume i c (k rand) h)
      | .cas w compare swap k =>
        let old := s.words w
        let s' := { s with words := if old = compare then update s.words w swap else s.words }
        some (s'.resume i c (k old) (h.cas w compare swap old))
      | .send m k =>
        let s' := { s with env := deliver s.env m }
        some (s'.resume i c k (h.send m))
      | _ => none
  | .env e => (envStep s.env e).map fun env => { s with env := env }

/-! ## Exclusion -/

/-- Every word is 1 exactly while some client owns it, and no word and no section
is shared. -/
structure Exclusive (words : W → Word64) (owned : ι → Finset W) (inside : ι → Finset B) :
    Prop where
  word : ∀ w, (words w = 1 ∧ ∃ i, w ∈ owned i) ∨ (words w = 0 ∧ ∀ i, w ∉ owned i)
  owned : ∀ i j, i ≠ j → Disjoint (owned i) (owned j)
  inside : ∀ i j, i ≠ j → Disjoint (inside i) (inside j)

theorem update_disjoint {β : Type} [DecidableEq β] {f : ι → Finset β} {i : ι} {x : Finset β}
    (h : ∀ i j, i ≠ j → Disjoint (f i) (f j)) (hx : ∀ j ≠ i, Disjoint x (f j)) :
    ∀ j k, j ≠ k → Disjoint (update f i x j) (update f i x k) := by
  intro j k hjk
  by_cases hj : j = i
  · subst hj
    rw [update_self, update_of_ne (Ne.symm hjk)]
    exact hx k (Ne.symm hjk)
  · rw [update_of_ne hj]
    by_cases hk : k = i
    · subst hk
      rw [update_self]
      exact (hx j hj).symm
    · rw [update_of_ne hk]
      exact h j k hjk

namespace Exclusive

variable {words : W → Word64} {owned : ι → Finset W} {inside : ι → Finset B} {i : ι} {w : W}
  {b : B}

omit [DecidableEq W] [DecidableEq B] [DecidableEq ι] in
theorem word_eq_one (h : Exclusive words owned inside) (hw : w ∈ owned i) : words w = 1 := by
  rcases h.word w with ⟨h1, _⟩ | ⟨_, hn⟩
  · exact h1
  · exact absurd hw (hn i)

omit [DecidableEq B] in
/-- A swap of 0 for 1 wins the word. -/
theorem acquire (h : Exclusive words owned inside) (h0 : words w = 0) :
    Exclusive (update words w 1) (update owned i (insert w (owned i))) inside := by
  have hfree : ∀ j, w ∉ owned j := by
    rcases h.word w with ⟨h1, _⟩ | ⟨_, hn⟩
    · rw [h0] at h1; cases h1
    · exact hn
  refine ⟨fun v => ?_, update_disjoint h.owned fun j hj => ?_, h.inside⟩
  · by_cases hv : v = w
    · subst hv
      exact Or.inl ⟨update_self _ _ _, i, by simp⟩
    · rw [update_of_ne hv]
      rcases h.word v with ⟨h1, j, hj⟩ | ⟨h0', hn⟩
      · refine Or.inl ⟨h1, j, ?_⟩
        by_cases hji : j = i
        · subst hji; simp [hj]
        · rwa [update_of_ne hji]
      · refine Or.inr ⟨h0', fun j => ?_⟩
        by_cases hji : j = i
        · subst hji; simp [hv, hn]
        · rw [update_of_ne hji]; exact hn j
  · exact Finset.disjoint_insert_left.mpr ⟨hfree j, h.owned i j (Ne.symm hj)⟩

omit [DecidableEq B] in
/-- A swap of 1 for 0 of an owned word gives it up. -/
theorem release (h : Exclusive words owned inside) (hw : w ∈ owned i) :
    Exclusive (update words w 0) (update owned i ((owned i).erase w)) inside := by
  have hother : ∀ j ≠ i, w ∉ owned j := fun j hj hwj =>
    Finset.disjoint_left.mp (h.owned i j (Ne.symm hj)) hw hwj
  refine ⟨fun v => ?_, update_disjoint h.owned fun j hj => ?_, h.inside⟩
  · by_cases hv : v = w
    · subst hv
      refine Or.inr ⟨update_self _ _ _, fun j => ?_⟩
      by_cases hji : j = i
      · subst hji; simp
      · rw [update_of_ne hji]; exact hother j hji
    · rw [update_of_ne hv]
      rcases h.word v with ⟨h1, j, hj⟩ | ⟨h0, hn⟩
      · refine Or.inl ⟨h1, j, ?_⟩
        by_cases hji : j = i
        · subst hji; simp [hj, hv]
        · rwa [update_of_ne hji]
      · refine Or.inr ⟨h0, fun j => ?_⟩
        by_cases hji : j = i
        · subst hji; simp [hn]
        · rw [update_of_ne hji]; exact hn j
  · exact (h.owned i j (Ne.symm hj)).mono_left (Finset.erase_subset _ _)

omit [DecidableEq W] in
/-- Whoever owns all words of a section is alone in it. -/
theorem enter {sections : B → Finset W} (h : Exclusive words owned inside)
    (hb : sections b ⊆ owned i)
    (hsteady : ∀ j ≠ i, ∀ b ∈ inside j, ∃ w ∈ sections b, w ∈ owned j) :
    Exclusive words owned (update inside i (insert b (inside i))) := by
  refine ⟨h.word, h.owned, update_disjoint h.inside fun j hj => ?_⟩
  refine Finset.disjoint_insert_left.mpr ⟨fun hbj => ?_, h.inside i j (Ne.symm hj)⟩
  obtain ⟨w, hw, hwj⟩ := hsteady j hj b hbj
  exact Finset.disjoint_left.mp (h.owned i j (Ne.symm hj)) (hb hw) hwj

omit [DecidableEq W] in
theorem leave (h : Exclusive words owned inside) :
    Exclusive words owned (update inside i ((inside i).erase b)) :=
  ⟨h.word, h.owned, update_disjoint h.inside fun j hj =>
    (h.inside i j (Ne.symm hj)).mono_left (Finset.erase_subset _ _)⟩

end Exclusive

/-- A program at a step of its own. -/
def Settled : Prog W B μ α → Prop
  | .ret _ | .enter _ _ | .leave _ _ => False
  | _ => True

variable {words : B → Finset W} {I : γ → History W B μ → Prop}
  {Q : γ → α → History W B μ → Prop} {s s' : System ι γ W B μ α E} {i : ι}

/-- Each client is where its program may be run on from, and each returned call
has left what it should. -/
structure Clients (words : B → Finset W) (I : γ → History W B μ → Prop)
    (Q : γ → α → History W B μ → Prop) (s : System ι γ W B μ α E) : Prop where
  settled : ∀ i r, s.client i = some r → Settled r.prog
  safe : ∀ i r, s.client i = some r → Safe words (I r.call) (Q r.call) r.prog r.history
  answered : ∀ r ∈ s.returned, Q r.call r.answer r.history

/-- What holds in every reachable state. -/
structure Inv (words : B → Finset W) (I : γ → History W B μ → Prop)
    (Q : γ → α → History W B μ → Prop) (s : System ι γ W B μ α E) : Prop
    extends Clients words I Q s where
  exclusive : Exclusive s.words s.ownedBy s.insideOf

omit [DecidableEq ι] in
/-- Between its steps a call is steady, and its own invariant holds. -/
theorem Clients.running (h : Clients words I Q s) {r : Running γ W B μ α}
    (hr : s.client i = some r) : r.history.Steady words ∧ I r.call r.history := by
  have hset := h.settled i r hr
  have hsafe := h.safe i r hr
  obtain ⟨c, p, hist⟩ := r
  cases p with
  | ret a => cases hset
  | random k => exact ⟨hsafe.1, hsafe.2.1⟩
  | cas w c sw k => exact ⟨hsafe.1, hsafe.2.1⟩
  | send m k => exact ⟨hsafe.1, hsafe.2.1⟩
  | enter b k => cases hset
  | leave b k => cases hset

omit [DecidableEq ι] [DecidableEq W] [DecidableEq B] in
theorem ownedBy_some {r : Running γ W B μ α} (hr : s.client i = some r) :
    s.ownedBy i = r.history.owned ∧ s.insideOf i = r.history.inside := by
  simp [System.ownedBy, System.insideOf, hr]

omit [DecidableEq ι] in
theorem Clients.steady (h : Clients words I Q s) :
    ∀ j, ∀ b ∈ s.insideOf j, ∃ w ∈ words b, w ∈ s.ownedBy j := by
  intro j b hb
  cases hj : s.client j with
  | none => simp [System.insideOf, hj] at hb
  | some r =>
    obtain ⟨ho, hin⟩ := ownedBy_some hj
    rw [hin] at hb
    rw [ho]
    exact (h.running hj).1 b hb

/-- Settling keeps what is owned and sent, and ends where the program returns or
takes a step. -/
theorem settle_spec {lockWords : W → Word64} {owned : ι → Finset W} {inside : ι → Finset B}
    {J : History W B μ → Prop} {R : α → History W B μ → Prop}
    (hsteady : ∀ j, ∀ b ∈ inside j, ∃ w ∈ words b, w ∈ owned j) :
    ∀ {p : Prog W B μ α} {h : History W B μ}, Safe words J R p h →
      Exclusive lockWords (update owned i h.owned) (update inside i h.inside) →
      Safe words J R (settle p h).1 (settle p h).2 ∧ (settle p h).2.owned = h.owned ∧
        (settle p h).2.sent = h.sent ∧
        Exclusive lockWords (update owned i (settle p h).2.owned)
          (update inside i (settle p h).2.inside) ∧
        (Settled (settle p h).1 ∨ ∃ a, (settle p h).1 = .ret a)
  | .ret a, h, hp, hx => ⟨hp, rfl, rfl, hx, Or.inr ⟨a, rfl⟩⟩
  | .random _, h, hp, hx => ⟨hp, rfl, rfl, hx, Or.inl trivial⟩
  | .cas _ _ _ _, h, hp, hx => ⟨hp, rfl, rfl, hx, Or.inl trivial⟩
  | .send _ _, h, hp, hx => ⟨hp, rfl, rfl, hx, Or.inl trivial⟩
  | .enter b k, h, ⟨hb, hk⟩, hx => by
    have henter := hx.enter (i := i) (b := b) (show words b ⊆ _ by rw [update_self]; exact hb)
      (fun j hj b hbj => by
        rw [update_of_ne hj] at hbj ⊢
        exact hsteady j b hbj)
    rw [update_self, update_idem] at henter
    obtain ⟨hs, ho, hm, hx', hend⟩ := settle_spec hsteady hk henter
    exact ⟨hs, ho, hm, hx', hend⟩
  | .leave b k, h, hk, hx => by
    have hleave := hx.leave (i := i) (b := b)
    rw [update_self, update_idem] at hleave
    have hk' : Safe words J R k (h.leave b) := hk
    obtain ⟨hs, ho, hm, hx', hend⟩ := settle_spec hsteady hk' hleave
    exact ⟨hs, ho, hm, hx', hend⟩

theorem park_inv (h : Clients words I Q s) {r : Running γ W B μ α} (hset : Settled r.prog)
    (hp : Safe words (I r.call) (Q r.call) r.prog r.history)
    (hx : Exclusive s.words (update s.ownedBy i r.history.owned)
      (update s.insideOf i r.history.inside)) : Inv words I Q (s.park i r) := by
  have hclient : ∀ j r', (s.park i r).client j = some r' →
      (j = i ∧ r' = r) ∨ (j ≠ i ∧ s.client j = some r') := by
    intro j r' hj
    rcases update_cases hj with ⟨hji, hr⟩ | hother
    · exact Or.inl ⟨hji, (Option.some.inj hr).symm⟩
    · exact Or.inr hother
  refine ⟨⟨fun j r' hj => ?_, fun j r' hj => ?_, h.answered⟩, ?_⟩
  · rcases hclient j r' hj with ⟨_, rfl⟩ | ⟨_, hj⟩
    · exact hset
    · exact h.settled j r' hj
  · rcases hclient j r' hj with ⟨_, rfl⟩ | ⟨_, hj⟩
    · exact hp
    · exact h.safe j r' hj
  · have howned : (s.park i r).ownedBy = update s.ownedBy i r.history.owned := by
      funext j
      by_cases hji : j = i
      · subst hji; simp [System.ownedBy, System.park]
      · simp [System.ownedBy, System.park, hji]
    have hinside : (s.park i r).insideOf = update s.insideOf i r.history.inside := by
      funext j
      by_cases hji : j = i
      · subst hji; simp [System.insideOf, System.park]
      · simp [System.insideOf, System.park, hji]
    rw [howned, hinside]
    exact hx

theorem finish_inv (h : Clients words I Q s) {r : Returned γ W B μ α}
    (hq : Q r.call r.answer r.history) (hnone : r.history.owned = ∅)
    (hx : Exclusive s.words (update s.ownedBy i r.history.owned)
      (update s.insideOf i r.history.inside)) : Inv words I Q (s.finish i r) := by
  have hclient : ∀ j r', (s.finish i r).client j = some r' → s.client j = some r' := by
    intro j r' hj
    by_cases hji : j = i
    · subst hji
      simp [System.finish] at hj
    · simpa [System.finish, hji] using hj
  refine ⟨⟨fun j r' hj => h.settled j r' (hclient j r' hj),
    fun j r' hj => h.safe j r' (hclient j r' hj), ?_⟩, ?_⟩
  · intro r' hr
    rcases List.mem_append.mp hr with hr | hr
    · exact h.answered r' hr
    · rw [List.mem_singleton.mp hr]
      exact hq
  · have howned : (s.finish i r).ownedBy = update s.ownedBy i ∅ := by
      funext j
      by_cases hji : j = i
      · subst hji; simp [System.ownedBy, System.finish]
      · simp [System.ownedBy, System.finish, hji]
    have hinside : (s.finish i r).insideOf = update s.insideOf i ∅ := by
      funext j
      by_cases hji : j = i
      · subst hji; simp [System.insideOf, System.finish]
      · simp [System.insideOf, System.finish, hji]
    rw [hnone] at hx
    rw [howned, hinside]
    refine ⟨hx.word, hx.owned, ?_⟩
    have := update_disjoint (x := ∅) (i := i) hx.inside fun j _ => Finset.disjoint_empty_left _
    rwa [update_idem] at this

/-- A client runs on from a history its program is safe from. -/
theorem resume_inv (h : Clients words I Q s)
    (hQ : ∀ c a hist, Q c a hist → hist.owned = ∅) {c : γ} {p : Prog W B μ α}
    {hist : History W B μ} (hp : Safe words (I c) (Q c) p hist)
    (hx : Exclusive s.words (update s.ownedBy i hist.owned) (update s.insideOf i hist.inside)) :
    Inv words I Q (s.resume i c p hist) := by
  obtain ⟨hs, _, _, hx', hend⟩ := settle_spec h.steady hp hx
  unfold System.resume
  generalize settle p hist = q at hs hx' hend
  obtain ⟨p', hist'⟩ := q
  dsimp only at hs hx' hend
  cases p' with
  | ret a => exact finish_inv h hs (hQ c a hist' hs) hx'
  | random k => exact park_inv h trivial hs hx'
  | cas w cmp sw k => exact park_inv h trivial hs hx'
  | send m k => exact park_inv h trivial hs hx'
  | enter b k => rcases hend with hf | ⟨_, hf⟩ <;> cases hf
  | leave b k => rcases hend with hf | ⟨_, hf⟩ <;> cases hf

variable {prog : γ → Prog W B μ α} {deliver : E → μ → E} {envStep : E → η → Option E}

/-- **One step** of a system whose programs are safe. -/
theorem step_inv (hprog : ∀ c, Safe words (I c) (Q c) (prog c) .empty)
    (hQ : ∀ c a hist, Q c a hist → hist.owned = ∅) {e : Event ι γ η} (h : Inv words I Q s)
    (hs : step prog deliver envStep s e = some s') : Inv words I Q s' := by
  cases e with
  | call i c =>
    simp only [step] at hs
    split at hs
    · rename_i hi
      cases hs
      have ho : s.ownedBy i = ∅ := by simp [System.ownedBy, hi]
      have hn : s.insideOf i = ∅ := by simp [System.insideOf, hi]
      refine resume_inv h.toClients hQ (hprog c) ?_
      rw [show History.empty.owned = s.ownedBy i from ho.symm,
        show History.empty.inside = s.insideOf i from hn.symm, update_eq_self, update_eq_self]
      exact h.exclusive
    · cases hs
  | next i rand =>
    simp only [step] at hs
    split at hs
    · cases hs
    rename_i c p hist hi
    have hsafe := h.safe i _ hi
    obtain ⟨ho, hn⟩ := ownedBy_some hi
    dsimp only at hsafe ho hn
    have hsame : Exclusive s.words (update s.ownedBy i hist.owned)
        (update s.insideOf i hist.inside) := by
      rw [← ho, ← hn, update_eq_self, update_eq_self]
      exact h.exclusive
    cases p with
    | ret a => cases hs
    | enter b k => cases hs
    | leave b k => cases hs
    | random k =>
      cases hs
      exact resume_inv h.toClients hQ (hsafe.2.2 rand) hsame
    | send m k =>
      cases hs
      exact resume_inv (s := { s with env := deliver s.env m })
        ⟨h.settled, h.safe, h.answered⟩ hQ hsafe.2.2.2 hsame
    | cas w cmp sw k =>
      cases hs
      have hclients : ∀ lockWords, Clients words I Q { s with words := lockWords } :=
        fun _ => ⟨h.settled, h.safe, h.answered⟩
      obtain ⟨_, _, ⟨rfl, rfl, hk1, hk0⟩ | ⟨rfl, rfl, hw, hk1⟩⟩ := hsafe
      · rcases h.exclusive.word w with ⟨h1, _⟩ | ⟨h0, hfree⟩
        · -- the word is taken: nothing changes
          rw [h1]
          exact resume_inv (hclients _) hQ hk1 hsame
        · rw [h0]
          have hacq := h.exclusive.acquire (i := i) h0
          rw [ho] at hacq
          have hcas : (hist.cas w 0 1 0).owned = insert w hist.owned := by simp [History.cas]
          refine resume_inv (hclients _) hQ (hk0 fun hw => hfree i (ho ▸ hw)) ?_
          rw [if_pos rfl, hcas, show (hist.cas w 0 1 0).inside = s.insideOf i by
            rw [hn]; simp [History.cas]]
          have hin : update s.insideOf i (s.insideOf i) = s.insideOf := update_eq_self _ _
          exact hin.symm ▸ hacq
      · have h1 := h.exclusive.word_eq_one (ho ▸ hw)
        rw [h1]
        have hrel := h.exclusive.release (i := i) (ho ▸ hw)
        rw [ho] at hrel
        have hcas : (hist.cas w 1 0 1).owned = hist.owned.erase w := by simp [History.cas]
        refine resume_inv (hclients _) hQ hk1 ?_
        rw [if_pos rfl, hcas, show (hist.cas w 1 0 1).inside = s.insideOf i by
          rw [hn]; simp [History.cas]]
        have hin : update s.insideOf i (s.insideOf i) = s.insideOf := update_eq_self _ _
        exact hin.symm ▸ hrel
  | env e =>
    simp only [step] at hs
    obtain ⟨env, _, rfl⟩ := Option.map_eq_some_iff.mp hs
    exact ⟨⟨h.settled, h.safe, h.answered⟩, h.exclusive⟩

omit [DecidableEq ι] in
theorem init_inv (env : E) : Inv words I Q (.init env : System ι γ W B μ α E) := by
  refine ⟨⟨nofun, nofun, nofun⟩, ⟨fun w => Or.inr ⟨rfl, fun i => ?_⟩, ?_, ?_⟩⟩
  · exact Finset.notMem_empty w
  · exact fun i j _ => Finset.disjoint_empty_left _
  · exact fun i j _ => Finset.disjoint_empty_left _

/-- **Exclusion.** Whatever the environment, in every state that clients with safe
programs reach each word is 1 exactly while one client owns it, no two clients are
inside one section, and returned calls have left what they should. -/
theorem run_inv (hprog : ∀ c, Safe words (I c) (Q c) (prog c) .empty)
    (hQ : ∀ c a hist, Q c a hist → hist.owned = ∅) {env : E} {es : List (Event ι γ η)}
    (h : exec (step prog deliver envStep) (.init env) es = some s) : Inv words I Q s :=
  exec_invariant (init_inv env) (fun _ _ _ hu hs => step_inv hprog hQ hu hs) h

/-! ## What a step can do -/

/-- A client has gone on in a call, or returned from it, having sent `sent` in
all. -/
inductive Resumed (s s' : System ι γ W B μ α E) (i : ι) (c : γ) (sent : List μ) : Prop
  | going (r : Running γ W B μ α) (hc : r.call = c) (hs : r.history.sent = sent)
    (hclient : s'.client = update s.client i (some r)) (hret : s'.returned = s.returned)
  | back (r : Returned γ W B μ α) (hc : r.call = c) (hs : r.history.sent = sent)
    (hclient : s'.client = update s.client i none) (hret : s'.returned = s.returned ++ [r])

omit [DecidableEq W] [DecidableEq B] in
/-- What holds of every call and what it has sent still does when it does of the
one that has gone on. -/
theorem Resumed.each {P : γ → List μ → Prop} {c : γ} {sent : List μ}
    (h : Resumed s s' i c sent) (hP : P c sent)
    (hrun : ∀ i r, s.client i = some r → P r.call r.history.sent)
    (hret : ∀ r ∈ s.returned, P r.call r.history.sent) :
    (∀ i r, s'.client i = some r → P r.call r.history.sent) ∧
      ∀ r ∈ s'.returned, P r.call r.history.sent := by
  cases h with
  | going r hc hs hclient hret' =>
    rw [hclient, hret']
    refine ⟨fun j r' hj => ?_, hret⟩
    rcases update_cases hj with ⟨_, hr⟩ | ⟨_, hj⟩
    · cases hr
      rw [hc, hs]
      exact hP
    · exact hrun j r' hj
  | back r hc hs hclient hret' =>
    rw [hclient, hret']
    refine ⟨fun j r' hj => ?_, fun r' hr' => ?_⟩
    · by_cases hji : j = i
      · subst hji
        simp at hj
      · rw [update_of_ne hji] at hj
        exact hrun j r' hj
    · rcases List.mem_append.mp hr' with hm | hm
      · exact hret r' hm
      · rw [List.mem_singleton.mp hm, hc, hs]
        exact hP

omit [DecidableEq ι] [DecidableEq W] in
theorem settle_sent : ∀ (p : Prog W B μ α) (h : History W B μ), (settle p h).2.sent = h.sent
  | .enter _ k, _ => settle_sent k _
  | .leave _ k, _ => settle_sent k _
  | .ret _, _ | .random _, _ | .cas _ _ _ _, _ | .send _ _, _ => rfl

omit [DecidableEq W] in
theorem resume_spec (s : System ι γ W B μ α E) (i : ι) (c : γ) (p : Prog W B μ α)
    (h : History W B μ) :
    Resumed s (s.resume i c p h) i c h.sent ∧ (s.resume i c p h).env = s.env := by
  have hsent := settle_sent p h
  unfold System.resume
  generalize settle p h = q at hsent
  obtain ⟨p', h'⟩ := q
  cases p' with
  | ret a => exact ⟨.back _ rfl hsent rfl rfl, rfl⟩
  | random k => exact ⟨.going _ rfl hsent rfl rfl, rfl⟩
  | cas w cmp sw k => exact ⟨.going _ rfl hsent rfl rfl, rfl⟩
  | send m k => exact ⟨.going _ rfl hsent rfl rfl, rfl⟩
  | enter b k => exact ⟨.going _ rfl hsent rfl rfl, rfl⟩
  | leave b k => exact ⟨.going _ rfl hsent rfl rfl, rfl⟩

/-- A step starts a call, takes a client on without sending, sends one message, or
is one of the environment. -/
theorem step_cases {e : Event ι γ η} (h : step prog deliver envStep s e = some s') :
    (∃ i c, e = .call i c ∧ s.client i = none ∧ Resumed s s' i c [] ∧ s'.env = s.env) ∨
    (∃ i r rand, e = .next i rand ∧ s.client i = some r ∧
      Resumed s s' i r.call r.history.sent ∧ s'.env = s.env) ∨
    (∃ i r rand m k, e = .next i rand ∧ s.client i = some r ∧ r.prog = .send m k ∧
      Resumed s s' i r.call (r.history.sent ++ [m]) ∧ s'.env = deliver s.env m) ∨
    ∃ e', e = .env e' ∧ s'.client = s.client ∧ s'.returned = s.returned ∧
      envStep s.env e' = some s'.env := by
  cases e with
  | call i c =>
    simp only [step] at h
    split at h
    · rename_i hi
      cases h
      obtain ⟨hr, he⟩ := resume_spec s i c (prog c) .empty
      exact Or.inl ⟨i, c, rfl, hi, hr, he⟩
    · cases h
  | next i rand =>
    right
    simp only [step] at h
    split at h
    · cases h
    rename_i c p hist hi
    have hlift : ∀ (lockWords : W → Word64) (env : E) {sent : List μ}
        {t : System ι γ W B μ α E},
        Resumed { s with words := lockWords, env := env } t i c sent → Resumed s t i c sent := by
      intro lockWords env sent t ht
      cases ht with
      | going r hc hs hclient hret => exact .going r hc hs hclient hret
      | back r hc hs hclient hret => exact .back r hc hs hclient hret
    cases p with
    | ret a => cases h
    | enter b k => cases h
    | leave b k => cases h
    | random k =>
      cases h
      obtain ⟨hr, he⟩ := resume_spec s i c (k rand) hist
      exact Or.inl ⟨i, _, rand, rfl, hi, hr, he⟩
    | cas w cmp sw k =>
      cases h
      obtain ⟨hr, he⟩ := resume_spec
        { s with words := if s.words w = cmp then update s.words w sw else s.words } i c
        (k (s.words w)) (hist.cas w cmp sw (s.words w))
      have hsent : (hist.cas w cmp sw (s.words w)).sent = hist.sent := by
        unfold History.cas
        split
        · rfl
        · split <;> rfl
      rw [hsent] at hr
      exact Or.inl ⟨i, _, rand, rfl, hi, hlift _ s.env hr, he⟩
    | send m k =>
      cases h
      obtain ⟨hr, he⟩ := resume_spec { s with env := deliver s.env m } i c k (hist.send m)
      exact Or.inr (Or.inl ⟨i, _, rand, m, k, rfl, hi, rfl, hlift s.words _ hr, he⟩)
  | env e' =>
    simp only [step] at h
    obtain ⟨env, henv, rfl⟩ := Option.map_eq_some_iff.mp h
    exact Or.inr (Or.inr (Or.inr ⟨e', rfl, rfl, rfl, henv⟩))

/-- The calls in a system are those that were made. -/
theorem run_calls {P : γ → Prop} {env : E} {es : List (Event ι γ η)}
    (hP : ∀ i c, .call i c ∈ es → P c)
    (h : exec (step prog deliver envStep) (.init env) es = some s) :
    (∀ i r, s.client i = some r → P r.call) ∧ ∀ r ∈ s.returned, P r.call := by
  refine exec_induction (motive := fun es t => (∀ i c, .call i c ∈ es → P c) →
    (∀ i r, t.client i = some r → P r.call) ∧ ∀ r ∈ t.returned, P r.call)
    (fun _ => ⟨nofun, nofun⟩) ?_ h hP
  intro es u e t _ ih hs hP
  obtain ⟨hrun, hret⟩ := ih fun i c hm => hP i c (by simp [hm])
  have hresumed : ∀ {i c sent}, P c → Resumed u t i c sent →
      (∀ i r, t.client i = some r → P r.call) ∧ ∀ r ∈ t.returned, P r.call := fun hc hr =>
    hr.each (P := fun c _ => P c) hc hrun hret
  rcases step_cases hs with ⟨i, c, he, _, hr, _⟩ | ⟨i, r, _, _, hi, hr, _⟩ |
    ⟨i, r, _, m, _, _, hi, _, hr, _⟩ | ⟨_, _, hclient, hret', _⟩
  · exact hresumed (hP i c (by simp [he])) hr
  · exact hresumed (hrun i r hi) hr
  · exact hresumed (hrun i r hi) hr
  · rw [hclient, hret']
    exact ⟨hrun, hret⟩

/-- What every delivery puts into the environment, and no step takes out again, is
there for every message sent. -/
theorem run_sent {D : E → μ → Prop} {env : E} {es : List (Event ι γ η)}
    (hnew : ∀ env m, D (deliver env m) m)
    (hdeliver : ∀ env m m', D env m → D (deliver env m') m)
    (hstep : ∀ env e env' m, envStep env e = some env' → D env m → D env' m)
    (h : exec (step prog deliver envStep) (.init env) es = some s) :
    (∀ i r, s.client i = some r → ∀ m ∈ r.history.sent, D s.env m) ∧
      ∀ r ∈ s.returned, ∀ m ∈ r.history.sent, D s.env m := by
  refine exec_invariant (I := fun s => (∀ i r, s.client i = some r →
    ∀ m ∈ r.history.sent, D s.env m) ∧ ∀ r ∈ s.returned, ∀ m ∈ r.history.sent, D s.env m)
    ⟨nofun, nofun⟩ ?_ h
  intro u e t ⟨hrun, hret⟩ hs
  rcases step_cases hs with ⟨i, c, _, _, hr, henv⟩ | ⟨i, r, _, _, hi, hr, henv⟩ |
    ⟨i, r, _, m, _, _, hi, _, hr, henv⟩ | ⟨e', _, hclient, hret', henv⟩
  · rw [henv]
    exact hr.each (P := fun _ sent => ∀ m ∈ sent, D u.env m) nofun hrun hret
  · rw [henv]
    exact hr.each (P := fun _ sent => ∀ m ∈ sent, D u.env m) (hrun i r hi) hrun hret
  · rw [henv]
    refine hr.each (P := fun _ sent => ∀ m ∈ sent, D _ m) (fun m' hm' => ?_)
      (fun i r hi m' hm' => hdeliver _ _ _ (hrun i r hi m' hm'))
      fun r hr m' hm' => hdeliver _ _ _ (hret r hr m' hm')
    rcases List.mem_append.mp hm' with hm' | hm'
    · exact hdeliver _ _ _ (hrun i r hi m' hm')
    · rw [List.mem_singleton.mp hm']
      exact hnew _ _
  · rw [hclient, hret']
    exact ⟨fun i r hi m hm => hstep _ _ _ _ henv (hrun i r hi m hm),
      fun r hr m hm => hstep _ _ _ _ henv (hret r hr m hm)⟩

/-! ## A client alone -/

/-- The words, and how many random numbers have been drawn. -/
structure Solo (W : Type) where
  words : W → Word64
  draws : Nat

/-- A program run to its end while nobody else takes a step. -/
def alone (rands : Nat → Nat) : Prog W B μ α → Solo W → α × Solo W
  | .ret a, s => (a, s)
  | .random k, s => alone rands (k (rands s.draws)) { s with draws := s.draws + 1 }
  | .cas w compare swap k, s =>
    let old := s.words w
    alone rands (k old)
      { s with words := if old = compare then update s.words w swap else s.words }
  | .send _ k, s => alone rands k s
  | .enter _ k, s => alone rands k s
  | .leave _ k, s => alone rands k s

omit [DecidableEq B] in
theorem alone_bind {rands : Nat → Nat} {f : α → Prog W B μ β} : ∀ (p : Prog W B μ α) (s : Solo W),
    alone rands (p.bind f) s = alone rands (f (alone rands p s).1) (alone rands p s).2
  | .ret _, _ => rfl
  | .random k, _ => alone_bind (k _) _
  | .cas _ _ _ k, _ => alone_bind (k _) _
  | .send _ k, s => alone_bind k s
  | .enter _ k, s => alone_bind k s
  | .leave _ k, s => alone_bind k s

/-- The run of the system in which only this client takes steps. -/
theorem exec_alone (rands : Nat → Nat) (i : ι) (c : γ) : ∀ (p : Prog W B μ α)
    (s : System ι γ W B μ α E) (h : History W B μ) (draws : Nat),
    ∃ es t h', (∀ e ∈ es, ∃ rand, e = Event.next i rand) ∧
      exec (step prog deliver envStep) (s.resume i c p h) es = some t ∧
      t.words = (alone rands p ⟨s.words, draws⟩).2.words ∧
      t.returned = s.returned ++ [⟨c, (alone rands p ⟨s.words, draws⟩).1, h'⟩] := by
  intro p
  induction p with
  | ret a => exact fun s h _ => ⟨[], _, h, by simp, rfl, rfl, rfl⟩
  | enter b k ih => exact fun s h draws => ih s (h.enter b) draws
  | leave b k ih => exact fun s h draws => ih s (h.leave b) draws
  | random k ih =>
    intro s h draws
    obtain ⟨es, t, h', hes, hrun, hw, hr⟩ :=
      ih (rands draws) (s.park i ⟨c, .random k, h⟩) h (draws + 1)
    refine ⟨.next i (rands draws) :: es, t, h', ?_, exec_cons.mpr ⟨_, ?_, hrun⟩, hw, hr⟩
    · exact List.forall_mem_cons.mpr ⟨⟨_, rfl⟩, hes⟩
    · simp [step, System.resume, settle, System.park]
  | cas w compare swap k ih =>
    intro s h draws
    obtain ⟨es, t, h', hes, hrun, hw, hr⟩ := ih (s.words w)
      { s.park i ⟨c, .cas w compare swap k, h⟩ with
        words := if s.words w = compare then update s.words w swap else s.words }
      (h.cas w compare swap (s.words w)) draws
    refine ⟨.next i 0 :: es, t, h', ?_, exec_cons.mpr ⟨_, ?_, hrun⟩, hw, hr⟩
    · exact List.forall_mem_cons.mpr ⟨⟨_, rfl⟩, hes⟩
    · have hclient : (s.park i ⟨c, .cas w compare swap k, h⟩).client i =
          some ⟨c, .cas w compare swap k, h⟩ := update_self _ _ _
      change step prog deliver envStep (s.park i ⟨c, .cas w compare swap k, h⟩) _ = _
      simp only [step, hclient]
      rfl
  | send m k ih =>
    intro s h draws
    obtain ⟨es, t, h', hes, hrun, hw, hr⟩ := ih
      { s.park i ⟨c, .send m k, h⟩ with env := deliver s.env m } (h.send m) draws
    refine ⟨.next i 0 :: es, t, h', ?_, exec_cons.mpr ⟨_, ?_, hrun⟩, hw, hr⟩
    · exact List.forall_mem_cons.mpr ⟨⟨_, rfl⟩, hes⟩
    · simp [step, System.resume, settle, System.park]

end ConcurrentComputing.LockClients
