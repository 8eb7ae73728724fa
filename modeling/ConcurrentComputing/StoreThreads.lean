import ConcurrentComputing.StoreMap

/-! # Worker threads over the store

Any number of threads in `insert` and `remove`, one section under the spin locks
at a time. A section that finds the key or a free slot keeps its locks until the
public `insert` has written; the search and the path computation run between
sections, and each of their reads may see any state there has been. -/

namespace ConcurrentComputing.Store.Threads

open CuckooPath Placement Runs Cuckoo Function

/-- The locals of a call of `insert`. -/
structure Locals where
  element : Node
  idx1 : Nat
  idx2 : Nat
  deriving DecidableEq, Repr

/-- The section a thread enters next. -/
inductive Pc where
  | idle
  | check (l : Locals)
  | search (l : Locals)
  | displace (l : Locals) (path : List Hop)
  deriving DecidableEq, Repr

/-- The table with the states it went through, latest first, the threads, and the
answers in the order of the sections that decided them. -/
structure State (ι : Type) where
  cuckoo : Cuckoo
  past : List Cuckoo
  pc : ι → Pc
  log : List (Op × Result)

/-- How an unlocked search falls out: the start slots it draws, and for each of its
reads how many steps back the state it sees lies. -/
structure Choice where
  rand : Nat → Nat := fun _ => 0
  search : Nat → Nat → Nat := fun _ _ => 0
  path : Nat → Nat := fun _ => 0

inductive Event (ι : Type) where
  | insert (t : ι) (element : Node)
  | remove (t : ι) (key : Word)
  | next (t : ι) (choice : Choice)

/-- The key a call is made with. -/
def Event.key {ι : Type} : Event ι → Option Word
  | .insert _ element => some element.key
  | .remove _ key => some key
  | .next _ _ => none

variable {ι : Type} [DecidableEq ι]

namespace State

def start (c : Cuckoo) : State ι := ⟨c, [], fun _ => .idle, []⟩

def reads (s : State ι) (choice : Choice) : Reads Word where
  search n i := ((s.cuckoo :: s.past).getD (choice.search n i) s.cuckoo).view
  path i := ((s.cuckoo :: s.past).getD (choice.path i) s.cuckoo).view

/-- The end of a section inside a call. -/
def goto (s : State ι) (t : ι) (c : Cuckoo) (pc : Pc) : State ι :=
  ⟨c, s.cuckoo :: s.past, update s.pc t pc, s.log⟩

/-- The end of the section that decides a call's answer. -/
def finish (s : State ι) (t : ι) (c : Cuckoo) (op : Op) (answer : Result) : State ι :=
  ⟨c, s.cuckoo :: s.past, update s.pc t .idle, s.log ++ [(op, answer)]⟩

/-- What the public `insert` does with a result. -/
def settle (s : State ι) (t : ι) (l : Locals) (c : Cuckoo) : InsertResult → State ι
  | .resize => s.finish t c (.insert l.element) .abortFailure
  | .retry => s.goto t c (.check l)
  | .duplicate _ index slot =>
    s.finish t { c with table := c.table.setElement index slot l.element } (.insert l.element) .dup
  | .success _ index slot =>
    s.finish t { c with table := c.table.setElement index slot l.element } (.insert l.element) .true

/-- The sections of `insert` that follow the search. -/
def displaceNext (s : State ι) (t : ι) (l : Locals) : List Hop → Option (State ι)
  | [] => none
  | [hop] => some (s.settle t l s.cuckoo (s.cuckoo.claim hop))
  | dst :: src :: path =>
    match s.cuckoo.displace dst src with
    | none => some (s.settle t l s.cuckoo .retry)
    | some c =>
      if path = [] then some (s.settle t l c (.success src.table src.index src.slot))
      else some (s.goto t c (.displace l (src :: path)))

end State

/-- One section of one thread; `none` when the thread is elsewhere. -/
def step (s : State ι) : Event ι → Option (State ι)
  | .insert t element =>
    match s.pc t with
    | .idle => some (s.goto t s.cuckoo (.check ⟨element, hash s.cuckoo.buckets element.key .one,
        hash s.cuckoo.buckets element.key .two⟩))
    | _ => none
  | .remove t key =>
    match s.pc t with
    | .idle => some (s.finish t (s.cuckoo.remove key).2 (.remove key) (s.cuckoo.remove key).1)
    | _ => none
  | .next t choice =>
    match s.pc t with
    | .idle => none
    | .check l =>
      match s.cuckoo.firstCheck l.element.key l.idx1 l.idx2 with
      | some r => some (s.settle t l s.cuckoo r)
      | none => some (s.goto t s.cuckoo (.search l))
    | .search l =>
      match findPath s.cuckoo.scheme (s.reads choice) choice.rand l.idx1 l.idx2 with
      | none => some (s.settle t l s.cuckoo .resize)
      | some path => some (s.goto t s.cuckoo (.displace l path))
    | .displace l path => s.displaceNext t l path

/-! ## What a step does -/

/-- What a step may do to the table, with what it appends to the log. -/
inductive Effect (c c' : Cuckoo) : List (Op × Result) → Prop
  | moved (hm : Moves (home c.buckets) c.content c'.content) : Effect c c' []
  | refused (op : Op) {answer : Result} (hanswer : answer ≠ .true ∧ answer ≠ .dup) (hc : c' = c) :
      Effect c c' [(op, answer)]
  | replaced {cell : Cell} {a element : Node} (ha : c.content cell = some a)
      (hk : a.key = element.key) (hc : c'.content = update c.content cell (some element)) :
      Effect c c' [(.insert element, .dup)]
  | wrote {d : Cell → Option Node} {cell : Cell} {element : Node}
      (hm : Moves (home c.buckets) c.content d) (hd : d cell = none)
      (hh : home c.buckets element cell) (hc : c'.content = update d cell (some element)) :
      Effect c c' [(.insert element, .true)]
  | removed {cell : Cell} {a : Node} (ha : c.content cell = some a)
      (hc : c'.content = update c.content cell none) : Effect c c' [(.remove a.key, .true)]

/-- The locals of a call under a bucket count. -/
structure Locals.Valid (buckets : Nat) (l : Locals) : Prop where
  nonzero : l.element.key ≠ 0
  one : l.idx1 = hash buckets l.element.key .one
  two : l.idx2 = hash buckets l.element.key .two

/-- What a thread may rely on at each point of `insert`. -/
def Pc.Valid (g : Scheme Word) (buckets : Nat) : Pc → Prop
  | .idle => True
  | .check l | .search l => l.Valid buckets
  | .displace l path => l.Valid buckets ∧ GoodPath g buckets l.idx1 l.idx2 path

structure Inv (s : State ι) : Prop extends s.cuckoo.WellPlaced where
  valid : ∀ t, (s.pc t).Valid s.cuckoo.scheme s.cuckoo.buckets

/-- A step taken from `s` that appended `new` to the log. -/
structure Stepped (s s' : State ι) (new : List (Op × Result)) : Prop where
  inv : Inv s'
  log : s'.log = s.log ++ new
  effect : Effect s.cuckoo s'.cuckoo new

variable {s s' : State ι} {t : ι} {l : Locals} {c : Cuckoo} {pc : Pc}

theorem Effect.placed {c c' : Cuckoo} {new : List (Op × Result)} (h : Effect c c' new)
    (hc : c.WellPlaced) (hb : c'.buckets = c.buckets) : c'.WellPlaced := by
  refine ⟨hb ▸ hc.pos, ?_⟩
  rw [hb]
  cases h with
  | moved hm => exact hm.placed hc.placed
  | refused _ _ he => rw [he]; exact hc.placed
  | @replaced cell a element ha hk he =>
    obtain ⟨hidx, hs⟩ := hc.placed cell a ha
    rw [hk] at hidx
    rw [he]
    exact hc.placed.put ⟨hidx, hs⟩
  | wrote hm _ hh he => rw [he]; exact (hm.placed hc.placed).put hh
  | removed _ he => rw [he]; exact hc.placed.erase

/-- A thread that moves on leaves the other threads' facts alone. -/
theorem Inv.next (hi : Inv s) {new : List (Op × Result)} (hb : c.buckets = s.cuckoo.buckets)
    (he : Effect s.cuckoo c new) (hpc : pc.Valid s.cuckoo.scheme s.cuckoo.buckets)
    (past : List Cuckoo) (log : List (Op × Result)) :
    Inv (⟨c, past, update s.pc t pc, log⟩ : State ι) := by
  have hscheme : c.scheme = s.cuckoo.scheme := by simp only [scheme, hb]
  refine ⟨he.placed hi.toWellPlaced hb, ?_⟩
  dsimp only
  rw [hscheme, hb]
  exact (forall_update_iff _ _).mpr ⟨hpc, fun u _ => hi.valid u⟩

theorem goto_stepped (hi : Inv s) (hb : c.buckets = s.cuckoo.buckets)
    (hm : Moves (home s.cuckoo.buckets) s.cuckoo.content c.content)
    (hpc : pc.Valid s.cuckoo.scheme s.cuckoo.buckets) : Stepped s (s.goto t c pc) [] :=
  have he := Effect.moved hm
  ⟨hi.next hb he hpc _ _, (List.append_nil _).symm, he⟩

theorem finish_stepped (hi : Inv s) (hb : c.buckets = s.cuckoo.buckets) {op : Op}
    {answer : Result} (he : Effect s.cuckoo c [(op, answer)]) :
    Stepped s (s.finish t c op answer) [(op, answer)] :=
  ⟨hi.next hb he (show Pc.Valid _ _ .idle from trivial) _ _, rfl, he⟩

/-- Writing the node to an empty slot of one of its two buckets. -/
theorem written_stepped (hi : Inv s) (hl : l.Valid s.cuckoo.buckets)
    (hb : c.buckets = s.cuckoo.buckets)
    (hm : Moves (home s.cuckoo.buckets) s.cuckoo.content c.content) {side : Side} {idx slot : Nat}
    (hbk : Bucket l.idx1 l.idx2 idx) (hs : slot < entryWidth)
    (h0 : (c.table.getElement idx slot).key = 0) :
    Stepped s (s.settle t l c (.success side idx slot)) [(.insert l.element, .true)] := by
  rw [hl.one, hl.two] at hbk
  have hidx : idx < c.buckets := by
    rw [hb]
    exact hbk.lt (hash_lt hi.pos _ .one) (hash_lt hi.pos _ .two)
  refine finish_stepped (c := ⟨c.buckets, c.table.setElement idx slot l.element⟩) hi hb
    (.wrote hm ((content_eq_none hidx hs).mpr h0) ⟨hbk, hs⟩ ?_)
  exact (content_setElement l.element hidx hs).trans (by rw [if_neg hl.nonzero])

/-- Writing the node over the one with its key. -/
theorem replaced_stepped (hi : Inv s) (hl : l.Valid s.cuckoo.buckets) {side : Side}
    {idx slot : Nat} (hbk : Bucket l.idx1 l.idx2 idx) (hs : slot < entryWidth)
    (hk : (s.cuckoo.table.getElement idx slot).key = l.element.key) :
    Stepped s (s.settle t l s.cuckoo (.duplicate side idx slot)) [(.insert l.element, .dup)] := by
  rw [hl.one, hl.two] at hbk
  have hidx := hbk.lt (hash_lt hi.pos l.element.key .one) (hash_lt hi.pos l.element.key .two)
  have hsome : s.cuckoo.content (idx, slot) = some (s.cuckoo.table.getElement idx slot) :=
    content_eq_some.mpr ⟨hidx, hs, rfl, hk ▸ hl.nonzero⟩
  refine finish_stepped
    (c := ⟨s.cuckoo.buckets, s.cuckoo.table.setElement idx slot l.element⟩) hi rfl
    (.replaced hsome hk ?_)
  exact (content_setElement l.element hidx hs).trans (by rw [if_neg hl.nonzero])

theorem displaceNext_stepped (hi : Inv s) (hl : l.Valid s.cuckoo.buckets) {path : List Hop}
    (hg : GoodPath s.cuckoo.scheme s.cuckoo.buckets l.idx1 l.idx2 path)
    (h : s.displaceNext t l path = some s') :
    ∃ new, Stepped s s' new ∧ ∀ e ∈ new, e = (.insert l.element, .true) := by
  have hretry : Stepped s (s.settle t l s.cuckoo .retry) [] := goto_stepped hi rfl (.refl _) hl
  match path, h with
  | [hop], h =>
    cases h
    have hbk := hg.last rfl
    unfold claim
    split
    · rename_i h0
      exact ⟨_, written_stepped hi hl rfl (.refl _) (hbk.imp And.right And.right)
        (hg.bounds hop (by simp)).2 (by simpa [Table.isOccupied] using h0), by simp⟩
    · exact ⟨_, hretry, by simp⟩
  | dst :: src :: path, h =>
    simp only [State.displaceNext] at h
    cases hd : s.cuckoo.displace dst src with
    | none =>
      rw [hd] at h
      cases h
      exact ⟨_, hretry, by simp⟩
    | some d =>
      rw [hd] at h
      have hdst := hg.bounds dst (by simp)
      have hsrc := hg.bounds src (by simp)
      obtain ⟨hb, a, hs, hn, hh, hm⟩ := displace_spec hdst hsrc hd
      have hmoves : Moves (home s.cuckoo.buckets) s.cuckoo.content d.content :=
        hm ▸ (Moves.refl _).tail hs hn hh
      dsimp only at h
      split at h
      · -- the slot just vacated is the one that takes the node
        rename_i hp
        cases h
        subst hp
        have hbk := hg.last rfl
        exact ⟨_, written_stepped hi hl hb hmoves (hbk.imp And.right And.right) hsrc.2
          (displace_vacates hdst hsrc hd), by simp⟩
      · cases h
        exact ⟨_, goto_stepped hi hb hmoves ⟨hl, hg.tail⟩, by simp⟩

/-- `remove` empties one slot with the key, or changes nothing. -/
theorem remove_stepped (hi : Inv s) {key : Word} (hk : key ≠ 0) :
    ∃ new, Stepped s (s.finish t (s.cuckoo.remove key).2 (.remove key) (s.cuckoo.remove key).1)
      new := by
  have hempty : ∀ side slot, slot < entryWidth →
      (s.cuckoo.table.getElement (hash s.cuckoo.buckets key side) slot).key = key →
      Stepped s (s.finish t { s.cuckoo with
        table := s.cuckoo.table.setKey (hash s.cuckoo.buckets key side) slot 0 } (.remove key) .true)
        [(.remove key, .true)] := by
    intro side slot hs he
    have hlt := hash_lt hi.pos key side
    have hne : (s.cuckoo.table.getElement (hash s.cuckoo.buckets key side) slot).key ≠ 0 := by
      rwa [he]
    have hremoved : Effect s.cuckoo ⟨s.cuckoo.buckets,
        s.cuckoo.table.setKey (hash s.cuckoo.buckets key side) slot 0⟩ [(.remove key, .true)] := by
      conv in (Op.remove key, _) => rw [← he]
      exact .removed (content_eq_some.mpr ⟨hlt, hs, rfl, hne⟩) (content_setKey hlt hs)
    exact finish_stepped (c := ⟨s.cuckoo.buckets,
      s.cuckoo.table.setKey (hash s.cuckoo.buckets key side) slot 0⟩) hi rfl hremoved
  unfold Cuckoo.remove
  dsimp only
  split
  · rename_i slot h1
    obtain ⟨hs, he⟩ := Table.findSlot_some h1
    exact ⟨_, hempty .one slot hs he⟩
  · split
    · rename_i slot h2
      obtain ⟨hs, he⟩ := Table.findSlot_some h2
      exact ⟨_, hempty .two slot hs he⟩
    · exact ⟨_, finish_stepped hi rfl (.refused _ ⟨by simp, by simp⟩ rfl)⟩

/-- All calls are made with non-zero keys. -/
def Nonzero (es : List (Event ι)) : Prop := ∀ e ∈ es, e.key ≠ some 0

/-- **One step.** Every section moves nodes between their homes, and the one that
decides an answer has the effect its log entry names. -/
theorem step_stepped {e : Event ι} (hi : Inv s) (hv : e.key ≠ some 0)
    (h : step s e = some s') : ∃ new, Stepped s s' new := by
  cases e with
  | insert t element =>
    simp only [step] at h
    split at h
    · cases h
      exact ⟨_, goto_stepped hi rfl (.refl _) ⟨by simpa [Event.key] using hv, rfl, rfl⟩⟩
    · cases h
  | remove t key =>
    simp only [step] at h
    split at h
    · cases h
      exact remove_stepped hi (by simpa [Event.key] using hv)
    · cases h
  | next t choice =>
    have hpc := hi.valid t
    simp only [step] at h
    split at h
    · cases h
    · rename_i l heq
      rw [heq] at hpc
      rcases firstCheck_spec s.cuckoo l.element.key l.idx1 l.idx2 with
        ⟨side, idx, slot, hf, hbk, hs, hk⟩ | ⟨side, idx, slot, hf, _, hbk, hs, h0⟩ | ⟨hf, _⟩ <;>
        rw [hf] at h <;> cases h
      · exact ⟨_, replaced_stepped hi hpc hbk hs hk⟩
      · exact ⟨_, written_stepped hi hpc rfl (.refl _) hbk hs h0⟩
      · exact ⟨_, goto_stepped hi rfl (.refl _) hpc⟩
    · rename_i l heq
      rw [heq] at hpc
      split at h <;> cases h
      · exact ⟨_, finish_stepped hi rfl (.refused _ ⟨by decide, by decide⟩ rfl)⟩
      · rename_i path hp
        refine ⟨_, goto_stepped hi rfl (.refl _) ⟨hpc, ?_⟩⟩
        exact path_good hi.pos (hpc.one ▸ hash_lt hi.pos _ _) (hpc.two ▸ hash_lt hi.pos _ _) hp
    · rename_i l path heq
      rw [heq] at hpc
      obtain ⟨new, hs, _⟩ := displaceNext_stepped hi hpc.1 hpc.2 h
      exact ⟨new, hs⟩

omit [DecidableEq ι] in
theorem start_inv (hc : c.WellPlaced) : Inv (State.start c : State ι) := ⟨hc, fun _ => trivial⟩

theorem run_inv {s₀ : State ι} {es : List (Event ι)} (hi : Inv s₀) (hv : Nonzero es)
    (h : exec step s₀ es = some s) : Inv s := by
  refine exec_induction (motive := fun es u => Nonzero es → Inv u) (fun _ => hi) ?_ h hv
  intro es u e w _ ih hs hv
  obtain ⟨_, hst⟩ := step_stepped (ih fun x hx => hv x (List.mem_append_left _ hx))
    (hv e (List.mem_append_right _ (List.mem_singleton_self e))) hs
  exact hst.inv

end ConcurrentComputing.Store.Threads
