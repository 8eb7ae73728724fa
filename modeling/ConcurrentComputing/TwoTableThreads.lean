import ConcurrentComputing.TwoTableSections
import ConcurrentComputing.Runs

/-! # Threads over the two-table set

Any number of threads in `insert`, `remove` and `contains`, one locked section at
a time. `lock_two` and `lock_three` cover every bucket a section touches, so a
section is one step; the search and the path computation hold no bucket lock, and
each of their reads may see any state there has been. A thread whose search fails
goes on to `resize`, where these runs stop following it. -/

namespace ConcurrentComputing.TwoTable.Threads

open CuckooPath Placement Runs Cuckoo Function

/-- The locals of a call of `insert`. -/
structure Locals where
  val : Val
  idx1 : Nat
  idx2 : Nat
  deriving DecidableEq, Repr

/-- The section a thread enters next. -/
inductive Pc where
  | idle
  | check (l : Locals)
  | search (l : Locals)
  | displace (l : Locals) (path : List Hop)
  | resize (l : Locals)
  deriving DecidableEq, Repr

/-- The tables with the states they went through, latest first, the threads, and
the answers in the order of the sections that decided them. -/
structure State (ι : Type) where
  cuckoo : Cuckoo
  past : List Cuckoo
  pc : ι → Pc
  log : List (Op × Bool)

/-- How an unlocked search falls out: the start slots it draws, and for each of
its reads how many steps back the state it sees lies. -/
structure Choice where
  rand : Nat → Nat := fun _ => 0
  search : Nat → Nat → Nat := fun _ _ => 0
  path : Nat → Nat := fun _ => 0

inductive Event (ι : Type) where
  | insert (t : ι) (val : Val)
  | remove (t : ι) (val : Val)
  | contains (t : ι) (val : Val)
  | next (t : ι) (choice : Choice)

/-- The value a call is made with. -/
def Event.val {ι : Type} : Event ι → Option Val
  | .insert _ val | .remove _ val | .contains _ val => some val
  | .next _ _ => none

variable {ι : Type} [DecidableEq ι]

namespace State

def start (c : Cuckoo) : State ι := ⟨c, [], fun _ => .idle, []⟩

def reads (s : State ι) (choice : Choice) : Reads Val where
  search n i := ((s.cuckoo :: s.past).getD (choice.search n i) s.cuckoo).view
  path i := ((s.cuckoo :: s.past).getD (choice.path i) s.cuckoo).view

/-- The end of a section inside a call. -/
def goto (s : State ι) (t : ι) (c : Cuckoo) (pc : Pc) : State ι :=
  ⟨c, s.cuckoo :: s.past, update s.pc t pc, s.log⟩

/-- The end of the section that decides a call's answer. -/
def finish (s : State ι) (t : ι) (c : Cuckoo) (op : Op) (answer : Bool) : State ι :=
  ⟨c, s.cuckoo :: s.past, update s.pc t .idle, s.log ++ [(op, answer)]⟩

/-- What the public `insert` does with a result; the write happens before the
locks of the section are released. -/
def settle (s : State ι) (t : ι) (l : Locals) (c : Cuckoo) : Result → State ι
  | .duplicate => s.finish t c (.insert l.val) false
  | .resize => s.goto t c (.resize l)
  | .retry => s.goto t c (.check l)
  | .success side idx slot => s.finish t (c.write side idx slot l.val) (.insert l.val) true

/-- The sections of `insert` that follow the search. -/
def displaceNext (s : State ι) (t : ι) (l : Locals) : List Hop → Option (State ι)
  | [] => none
  | [hop] => some (s.settle t l s.cuckoo (s.cuckoo.claim hop))
  | dst :: src :: path =>
    match s.cuckoo.displace dst src with
    | none => some (s.settle t l s.cuckoo .retry)
    | some c =>
      if path = [] then some (s.settle t l c (.success src.table src.index src.slot))
      else some (s.goto t c (.displace l (src :: path)))

end State

/-- One section of one thread; `none` when the thread is elsewhere. -/
def step (s : State ι) : Event ι → Option (State ι)
  | .insert t val =>
    match s.pc t with
    | .idle => some (s.goto t s.cuckoo
        (.check ⟨val, hash s.cuckoo.buckets val .one, hash s.cuckoo.buckets val .two⟩))
    | _ => none
  | .remove t val =>
    match s.pc t with
    | .idle => some (s.finish t (s.cuckoo.remove val).2 (.remove val) (s.cuckoo.remove val).1)
    | _ => none
  | .contains t val =>
    match s.pc t with
    | .idle => some (s.finish t s.cuckoo (.contains val) (s.cuckoo.contains val))
    | _ => none
  | .next t choice =>
    match s.pc t with
    | .idle | .resize _ => none
    | .check l =>
      match s.cuckoo.firstCheck l.val l.idx1 l.idx2 with
      | some r => some (s.settle t l s.cuckoo r)
      | none => some (s.goto t s.cuckoo (.search l))
    | .search l =>
      match findPath s.cuckoo.scheme (s.reads choice) choice.rand l.idx1 l.idx2 with
      | none => some (s.settle t l s.cuckoo .resize)
      | some path => some (s.goto t s.cuckoo (.displace l path))
    | .displace l path => s.displaceNext t l path

/-! ## What a step does -/

/-- What a step may do to the tables, with what it appends to the log. -/
inductive Effect (c c' : Cuckoo) : List (Op × Bool) → Prop
  | moved (hm : Moves (home c.buckets) c.content c'.content) : Effect c c' []
  | refused (op : Op) (hop : ∀ v, op ≠ .contains v) (hc : c' = c) : Effect c c' [(op, false)]
  | looked (v : Val) (hc : c' = c) : Effect c c' [(.contains v, c.contains v)]
  | wrote {d : Cell → Option Val} {cell : Cell} {v : Val}
      (hm : Moves (home c.buckets) c.content d) (hd : d cell = none)
      (hh : home c.buckets v cell) (hc : c'.content = update d cell (some v)) :
      Effect c c' [(.insert v, true)]
  | removed {cell : Cell} {v : Val} (hv : c.content cell = some v)
      (hc : c'.content = update c.content cell none) : Effect c c' [(.remove v, true)]

/-- The locals of a call under a bucket count. -/
structure Locals.Valid (buckets : Nat) (l : Locals) : Prop where
  nonzero : l.val ≠ 0
  one : l.idx1 = hash buckets l.val .one
  two : l.idx2 = hash buckets l.val .two

/-- What a thread may rely on at each point of `insert`. -/
def Pc.Valid (g : Scheme Val) (buckets : Nat) : Pc → Prop
  | .idle => True
  | .check l | .search l | .resize l => l.Valid buckets
  | .displace l path => l.Valid buckets ∧ GoodPath g buckets l.idx1 l.idx2 path

structure Inv (s : State ι) : Prop extends s.cuckoo.WellPlaced where
  valid : ∀ t, (s.pc t).Valid s.cuckoo.scheme s.cuckoo.buckets

/-- A step taken from `s` that appended `new` to the log. -/
structure Stepped (s s' : State ι) (new : List (Op × Bool)) : Prop where
  inv : Inv s'
  buckets : s'.cuckoo.buckets = s.cuckoo.buckets
  log : s'.log = s.log ++ new
  effect : Effect s.cuckoo s'.cuckoo new

variable {s s' : State ι} {t : ι} {l : Locals} {c : Cuckoo} {pc : Pc}

theorem Effect.placed {c c' : Cuckoo} {new : List (Op × Bool)} (h : Effect c c' new)
    (hc : c.WellPlaced) (hb : c'.buckets = c.buckets) : c'.WellPlaced := by
  refine ⟨hb ▸ hc.pos, ?_⟩
  rw [hb]
  cases h with
  | moved hm => exact hm.placed hc.placed
  | refused _ _ he => rw [he]; exact hc.placed
  | looked _ he => rw [he]; exact hc.placed
  | wrote hm _ hh he => rw [he]; exact (hm.placed hc.placed).put hh
  | removed _ he => rw [he]; exact hc.placed.erase

theorem scheme_eq {c c' : Cuckoo} (h : c'.buckets = c.buckets) : c'.scheme = c.scheme := by
  simp only [scheme, h]

/-- A thread that moves on leaves the other threads' facts alone. -/
theorem Inv.next (hi : Inv s) {new : List (Op × Bool)} (hb : c.buckets = s.cuckoo.buckets)
    (he : Effect s.cuckoo c new) (hpc : pc.Valid s.cuckoo.scheme s.cuckoo.buckets)
    (past : List Cuckoo) (log : List (Op × Bool)) :
    Inv (⟨c, past, update s.pc t pc, log⟩ : State ι) := by
  refine ⟨he.placed hi.toWellPlaced hb, ?_⟩
  dsimp only
  rw [scheme_eq hb, hb]
  exact (forall_update_iff _ _).mpr ⟨hpc, fun u _ => hi.valid u⟩

theorem goto_stepped (hi : Inv s) (hb : c.buckets = s.cuckoo.buckets)
    (hm : Moves (home s.cuckoo.buckets) s.cuckoo.content c.content)
    (hpc : pc.Valid s.cuckoo.scheme s.cuckoo.buckets) : Stepped s (s.goto t c pc) [] :=
  have he := Effect.moved hm
  ⟨hi.next hb he hpc _ _, hb, (List.append_nil _).symm, he⟩

theorem finish_stepped (hi : Inv s) (hb : c.buckets = s.cuckoo.buckets) {op : Op} {answer : Bool}
    (he : Effect s.cuckoo c [(op, answer)]) :
    Stepped s (s.finish t c op answer) [(op, answer)] :=
  ⟨hi.next hb he (show Pc.Valid _ _ .idle from trivial) _ _, hb, rfl, he⟩

/-- Writing the value to an empty slot of one of its two buckets. -/
theorem written_stepped (hi : Inv s) (hl : l.Valid s.cuckoo.buckets)
    (hb : c.buckets = s.cuckoo.buckets)
    (hm : Moves (home s.cuckoo.buckets) s.cuckoo.content c.content) {side : Side} {idx slot : Nat}
    (hbk : Bucket l.idx1 l.idx2 side idx) (hs : slot < width) (h0 : c.view side idx slot = 0) :
    Stepped s (s.settle t l c (.success side idx slot)) [(.insert l.val, true)] := by
  rw [hl.one, hl.two] at hbk
  have hidx : idx < c.buckets := by
    rw [hb]
    exact hbk.lt (hash_lt hi.pos l.val .one) (hash_lt hi.pos l.val .two)
  refine finish_stepped hi (by simpa using hb) (.wrote hm ?_ (hbk.home hs) ?_)
  · exact (content_eq_none hidx hs).mpr h0
  · rw [content_write l.val hidx hs, if_neg hl.nonzero]

theorem displaceNext_stepped (hi : Inv s) (hl : l.Valid s.cuckoo.buckets) {path : List Hop}
    (hg : GoodPath s.cuckoo.scheme s.cuckoo.buckets l.idx1 l.idx2 path)
    (h : s.displaceNext t l path = some s') :
    ∃ new, Stepped s s' new ∧ ∀ e ∈ new, e = (.insert l.val, true) := by
  have hretry : Stepped s (s.settle t l s.cuckoo .retry) [] := goto_stepped hi rfl (.refl _) hl
  match path, h with
  | [hop], h =>
    cases h
    have hbk := hg.last rfl
    unfold claim
    split
    · rename_i h0
      exact ⟨_, written_stepped hi hl rfl (.refl _) hbk (hg.bounds hop (by simp)).2
        (by simpa [Table.isOccupied] using h0), by simp⟩
    · exact ⟨_, hretry, by simp⟩
  | dst :: src :: path, h =>
    simp only [State.displaceNext] at h
    cases hd : s.cuckoo.displace dst src with
    | none =>
      rw [hd] at h
      cases h
      exact ⟨_, hretry, by simp⟩
    | some d =>
      rw [hd] at h
      have hdst := hg.bounds dst (by simp)
      have hsrc := hg.bounds src (by simp)
      have halt := (List.isChain_cons_cons.mp hg.alternate).1
      obtain ⟨hb, a, hs, hn, hh, hm⟩ := displace_spec hdst hsrc halt hd
      have hmoves : Moves (home s.cuckoo.buckets) s.cuckoo.content d.content :=
        hm ▸ (Moves.refl _).tail hs hn hh
      dsimp only at h
      split at h
      · -- the slot just vacated is the one that takes the value
        rename_i hp
        cases h
        subst hp
        have hbk := hg.last rfl
        exact ⟨_, written_stepped hi hl hb hmoves hbk hsrc.2
          (displace_vacates hdst hsrc halt hd), by simp⟩
      · cases h
        exact ⟨_, goto_stepped hi hb hmoves ⟨hl, hg.tail⟩, by simp⟩

/-- **One step.** Every section moves entries between their homes, and the one
that decides an answer has the effect its log entry names. -/
theorem step_stepped {e : Event ι} (hi : Inv s) (hv : e.val ≠ some 0)
    (h : step s e = some s') : ∃ new, Stepped s s' new := by
  cases e with
  | insert t val =>
    simp only [step] at h
    split at h
    · cases h
      exact ⟨_, goto_stepped hi rfl (.refl _) ⟨by simpa [Event.val] using hv, rfl, rfl⟩⟩
    · cases h
  | remove t val =>
    simp only [step] at h
    split at h
    · cases h
      rcases remove_spec (c := s.cuckoo) (by simpa [Event.val] using hv) hi.pos with
        ⟨cell, hc, ht, hcont, hb⟩ | ⟨he, _⟩
      · rw [ht]
        exact ⟨_, finish_stepped hi hb (.removed hc hcont)⟩
      · rw [he]
        exact ⟨_, finish_stepped hi rfl (.refused _ (by simp) rfl)⟩
    · cases h
  | contains t val =>
    simp only [step] at h
    split at h
    · cases h
      exact ⟨_, finish_stepped hi rfl (.looked _ rfl)⟩
    · cases h
  | next t choice =>
    have hpc := hi.valid t
    simp only [step] at h
    split at h
    · cases h
    · cases h
    · rename_i l heq
      rw [heq] at hpc
      rcases firstCheck_spec s.cuckoo l.val l.idx1 l.idx2 with ⟨hf, _⟩ |
        ⟨side, idx, slot, hf, _, hbk, hs, h0⟩ | ⟨hf, _⟩ <;> rw [hf] at h <;> cases h
      · exact ⟨_, finish_stepped hi rfl (.refused _ (by simp) rfl)⟩
      · exact ⟨_, written_stepped hi hpc rfl (.refl _) hbk hs h0⟩
      · exact ⟨_, goto_stepped hi rfl (.refl _) hpc⟩
    · rename_i l heq
      rw [heq] at hpc
      split at h <;> cases h
      · exact ⟨_, goto_stepped hi rfl (.refl _) hpc⟩
      · rename_i path hp
        refine ⟨_, goto_stepped hi rfl (.refl _) ⟨hpc, ?_⟩⟩
        exact path_good hi.pos (hpc.one ▸ hash_lt hi.pos _ _) (hpc.two ▸ hash_lt hi.pos _ _) hp
    · rename_i l path heq
      rw [heq] at hpc
      obtain ⟨new, hs, _⟩ := displaceNext_stepped hi hpc.1 hpc.2 h
      exact ⟨new, hs⟩

/-- All calls are made with non-zero values. -/
def Nonzero (es : List (Event ι)) : Prop := ∀ e ∈ es, e.val ≠ some 0

omit [DecidableEq ι] in
theorem start_inv (hc : c.WellPlaced) : Inv (State.start c : State ι) := ⟨hc, fun _ => trivial⟩

theorem run_inv {s₀ : State ι} {es : List (Event ι)} (hi : Inv s₀) (hv : Nonzero es)
    (h : exec step s₀ es = some s) : Inv s := by
  refine exec_induction (motive := fun es u => Nonzero es → Inv u) (fun _ => hi) ?_ h hv
  intro es u e w _ ih hs hv
  obtain ⟨_, hst⟩ := step_stepped (ih fun x hx => hv x (by simp [hx])) (hv e (by simp)) hs
  exact hst.inv

/-! ## Nothing is lost or duplicated -/

/-- The inserts of accepted values that have written. -/
def written (f : Val → Bool) (log : List (Op × Bool)) : Nat :=
  log.countP fun
    | (.insert v, true) => f v
    | _ => false

/-- The removes of accepted values that answered true. -/
def taken (f : Val → Bool) (log : List (Op × Bool)) : Nat :=
  log.countP fun
    | (.remove v, true) => f v
    | _ => false

/-- How many slots hold the value. -/
def copies (c : Cuckoo) (v : Val) : Nat := tally (cells c.buckets) (· == v) c.content

theorem Effect.balance {c c' : Cuckoo} {new : List (Op × Bool)} (h : Effect c c' new)
    (hc : c.WellPlaced) (f : Val → Bool) :
    tally (cells c.buckets) f c'.content + taken f new =
      tally (cells c.buckets) f c.content + written f new := by
  have hmoves : ∀ {d : Cell → Option Val}, Moves (home c.buckets) c.content d →
      tally (cells c.buckets) f d = tally (cells c.buckets) f c.content := by
    intro d hm
    refine hm.tally_eq ?_ (fun _ _ hh => home_mem_cells hc.pos hh) hc.placed
    exact fun e he p a hp => home_mem_cells hc.pos (he p a hp)
  cases h with
  | moved hm => rw [hmoves hm]; rfl
  | refused op hop he =>
    rw [he]
    cases op <;> rfl
  | looked v he =>
    rw [he]
    cases c.contains v <;> rfl
  | @wrote d cell v hm hd hh he =>
    rw [he, tally_put (home_mem_cells hc.pos hh) hd, hmoves hm]
    cases hf : f v <;> simp [taken, written, hf]
  | @removed cell v hv he =>
    rw [he, ← tally_erase (content_mem_cells hv) hv]
    cases hf : f v <;> simp [taken, written, hf]

theorem run_balance {s₀ : State ι} {es : List (Event ι)} (hi : Inv s₀) (hv : Nonzero es)
    (hlog : s₀.log = []) (h : exec step s₀ es = some s) (f : Val → Bool) :
    s.cuckoo.buckets = s₀.cuckoo.buckets ∧
      tally (cells s₀.cuckoo.buckets) f s.cuckoo.content + taken f s.log =
        tally (cells s₀.cuckoo.buckets) f s₀.cuckoo.content + written f s.log := by
  refine exec_induction (motive := fun es u => Nonzero es →
    u.cuckoo.buckets = s₀.cuckoo.buckets ∧
      tally (cells s₀.cuckoo.buckets) f u.cuckoo.content + taken f u.log =
        tally (cells s₀.cuckoo.buckets) f s₀.cuckoo.content + written f u.log) ?_ ?_ h hv
  · intro _
    rw [hlog]
    exact ⟨rfl, rfl⟩
  · intro es u e w hu ih hs hv
    have hv' : Nonzero es := fun x hx => hv x (by simp [hx])
    have hiu := run_inv hi hv' hu
    obtain ⟨new, hst⟩ := step_stepped hiu (hv e (by simp)) hs
    obtain ⟨hb, hbal⟩ := ih hv'
    have hnew := hst.effect.balance hiu.toWellPlaced f
    rw [hb] at hnew
    refine ⟨hst.buckets.trans hb, ?_⟩
    have ht : taken f w.log = taken f u.log + taken f new := by
      simp [taken, hst.log, List.countP_append]
    have hw : written f w.log = written f u.log + written f new := by
      simp [written, hst.log, List.countP_append]
    omega

/-- **No loss.** In every state reached from a table with every value at its own
index, every value still is, and each value's copies and the size are the initial
ones plus the inserts that have written minus the removes that answered true. -/
theorem copies_conserved (hc : c.WellPlaced) {es : List (Event ι)} (hv : Nonzero es)
    (h : exec step (State.start c) es = some s) :
    s.cuckoo.WellPlaced ∧
    (∀ v, copies s.cuckoo v + taken (· == v) s.log = copies c v + written (· == v) s.log) ∧
    s.cuckoo.size + taken (fun _ => true) s.log = c.size + written (fun _ => true) s.log := by
  have hi := start_inv (ι := ι) hc
  refine ⟨(run_inv hi hv h).toWellPlaced, fun v => ?_, ?_⟩
  · obtain ⟨hb, hbal⟩ := run_balance hi hv rfl h (· == v)
    unfold copies
    rw [hb]
    exact hbal
  · obtain ⟨hb, hbal⟩ := run_balance hi hv rfl h fun _ => true
    rw [size_eq_tally, size_eq_tally, hb]
    exact hbal

/-- A call of `insert` that ends in its first section. -/
def quickInsert (t : ι) (val : Val) : List (Event ι) := [.insert t val, .next t {}]

/-- Two threads over one bucket, with an insert cut in two by a remove. -/
theorem copies_conserved_two_threads :
    ∃ s, exec step (State.start (.new 1) : State Bool)
        (quickInsert false 5 ++ [.insert true 7, .remove false 5, .next true {}]) = some s ∧
      s.cuckoo.size + 1 = 0 + 2 := by
  have hrun : (exec step (State.start (.new 1) : State Bool)
      (quickInsert false 5 ++ [.insert true 7, .remove false 5, .next true {}])).map
        (fun s => (taken (fun _ => true) s.log, written (fun _ => true) s.log)) = some (1, 2) := by
    decide +kernel
  obtain ⟨s, hs, hlog⟩ := Option.map_eq_some_iff.mp hrun
  obtain ⟨ht, hw⟩ := Prod.mk.inj hlog
  have h := (copies_conserved (.new (by decide)) (by unfold Nonzero; decide) hs).2.2
  rw [ht, hw] at h
  exact ⟨s, hs, h⟩

end ConcurrentComputing.TwoTable.Threads
