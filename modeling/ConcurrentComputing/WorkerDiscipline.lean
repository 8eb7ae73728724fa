import ConcurrentComputing.RemoteLookup

/-! # What the workers keep to

A write is made under the lock of its bucket, no worker waits for ever, and the keys
in the table are those that were there or have been written by an `insert`: the copy
and the clearing of a displacement leave them the same, each on its own. -/

namespace ConcurrentComputing.Store

open Placement

/-- The keys in the table. -/
def Cuckoo.keys (c : Cuckoo) : Set Word := {key | ∃ a ∈ stored c.content, a.key = key}

theorem Cuckoo.mem_keys {c : Cuckoo} {key : Word} : key ∈ c.keys ↔
    key ≠ 0 ∧ ∃ idx < c.buckets, ∃ j < entryWidth, (c.table.getElement idx j).key = key := by
  constructor
  · rintro ⟨a, ⟨⟨idx, j⟩, ha⟩, rfl⟩
    obtain ⟨hi, hj, he, hk⟩ := content_eq_some.mp ha
    exact ⟨hk, idx, hi, j, hj, congrArg Node.key he⟩
  · rintro ⟨hk, idx, hi, j, hj, rfl⟩
    exact ⟨_, ⟨(idx, j), content_eq_some.mpr ⟨hi, hj, rfl, hk⟩⟩, rfl⟩

end ConcurrentComputing.Store

namespace ConcurrentComputing.Store.Workers

open CuckooPath Placement Runs Cuckoo ReadWriteLock LockOrder BucketLocks Function

variable {ι : Type} [DecidableEq ι] {s s' : State ι} {c c' : Cuckoo} {t : ι} {l : Locals}
  {ops : List LockOp} {pc : Pc} {key : Word} {idx slot : Nat} {dst src : Hop} {e : Event ι}

/-! ## The effect of a step -/

def Event.thread : Event ι → ι
  | .insert t _ | .next t _ => t

/-- The key that a thread is about to write. -/
def State.adds (s : State ι) (t : ι) : Option Word :=
  match s.thread t with
  | ⟨[], .write l _ _⟩ => if l.element.key = 0 then none else some l.element.key
  | _ => none

/-- What a step does to the table. -/
inductive Effect (s : State ι) (t : ι) : Cuckoo → Prop
  | none (hadds : s.adds t = none) : Effect s t s.cuckoo
  | copy {l : Locals} {dst src : Hop} {path : List Hop}
    (ht : s.thread t = ⟨[], .displace l (dst :: src :: path)⟩)
    (hmove : canMove s.cuckoo dst src = true) : Effect s t (copy s.cuckoo dst src)
  | clear {l : Locals} {dst src : Hop} {path : List Hop}
    (ht : s.thread t = ⟨[], .clear l dst src path⟩) : Effect s t (clear s.cuckoo src)
  | write {l : Locals} {index slot : Nat} (ht : s.thread t = ⟨[], .write l index slot⟩) :
    Effect s t { s.cuckoo with table := s.cuckoo.table.setElement index slot l.element }

theorem check_effect (ht : s.thread t = ⟨[], .check l⟩) : Effect s t (s.check t l).cuckoo := by
  unfold State.check
  split <;> exact .none (by rw [State.adds, ht])

theorem displace_effect {path : List Hop} (ht : s.thread t = ⟨[], .displace l path⟩)
    (h : s.displace t l path = some s') : Effect s t s'.cuckoo := by
  have hadds : s.adds t = none := by rw [State.adds, ht]
  match path, h with
  | [hop], h =>
    simp only [State.displace] at h
    split at h <;> cases h <;> exact .none hadds
  | dst :: src :: path, h =>
    simp only [State.displace] at h
    split at h <;> cases h
    · rename_i hmove
      exact .copy ht hmove
    · exact .none hadds

theorem clear_effect {path : List Hop} (ht : s.thread t = ⟨[], .clear l dst src path⟩) :
    Effect s t (s.clear t l dst src path).cuckoo := by
  unfold State.clear
  dsimp only
  split <;> exact .clear ht

theorem step_effect (h : step s e = some s') : Effect s e.thread s'.cuckoo := by
  cases e with
  | insert t element =>
    simp only [Workers.step] at h
    split at h <;> cases h
    rename_i ht
    exact .none (by rw [Event.thread, State.adds, ht])
  | next t choice =>
    simp only [Workers.step] at h
    split at h
    · rename_i ht
      obtain ⟨locks, -, rfl⟩ := Option.map_eq_some_iff.mp h
      exact .none (by rw [Event.thread, State.adds, ht])
    · rename_i pc ht
      cases pc with
      | idle => cases h
      | check l => cases h; exact check_effect ht
      | search l =>
        simp only [State.advance] at h
        split at h <;> cases h <;> exact .none (by rw [Event.thread, State.adds, ht])
      | displace l path => exact displace_effect ht h
      | clear l dst src path => cases h; exact clear_effect ht
      | write l index slot => cases h; exact .write ht

/-! ## The keys -/

/-- A write over an empty slot, or over a node with the same key. -/
theorem keys_setElement {element : Node} (hi : idx < c.buckets) (hs : slot < entryWidth)
    (hold : (c.table.getElement idx slot).key = 0 ∨
      (c.table.getElement idx slot).key = element.key) :
    key ∈ ({ c with table := c.table.setElement idx slot element } : Cuckoo).keys ↔
      key ∈ c.keys ∨ (key ≠ 0 ∧ key = element.key) := by
  rw [mem_keys, mem_keys, ← and_or_left]
  refine and_congr_right fun hk => ?_
  constructor
  · rintro ⟨i, hib, j, hj, he⟩
    rw [Table.getElement_setElement _ _ hs hj] at he
    split at he
    · exact Or.inr he.symm
    · exact Or.inl ⟨i, hib, j, hj, he⟩
  · rintro (⟨i, hib, j, hj, he⟩ | rfl)
    · refine ⟨i, hib, j, hj, ?_⟩
      rw [Table.getElement_setElement _ _ hs hj]
      split
      · rename_i hsame
        obtain ⟨rfl, rfl⟩ := hsame
        rcases hold with h0 | hsame
        · exact absurd (he.symm.trans h0) hk
        · exact hsame.symm.trans he
      · exact he
    · refine ⟨idx, hi, slot, hs, ?_⟩
      rw [Table.getElement_setElement _ _ hs hs, if_pos ⟨rfl, rfl⟩]

/-- A copy brings no key that was not there. -/
theorem keys_copy (hd : dst.index < c.buckets ∧ dst.slot < entryWidth)
    (hs : src.index < c.buckets ∧ src.slot < entryWidth) (hmove : canMove c dst src = true) :
    (copy c dst src).keys = c.keys := by
  obtain ⟨hempty, hne, -⟩ := canMove_iff.mp hmove
  ext key
  rw [copy, keys_setElement hd.1 hd.2 (Or.inl hempty)]
  refine or_iff_left_of_imp ?_
  rintro ⟨-, rfl⟩
  exact mem_keys.mpr ⟨hne, src.index, hs.1, src.slot, hs.2, rfl⟩

/-- Clearing the slot of a node that has been copied takes no key away. -/
theorem keys_clear (hd : dst.index < c.buckets ∧ dst.slot < entryWidth)
    (hs : src.slot < entryWidth) (hcopied : Copied c dst src) :
    (clear c src).keys = c.keys := by
  ext key
  rw [mem_keys, mem_keys]
  refine and_congr_right fun hk => ?_
  constructor
  · rintro ⟨i, hib, j, hj, he⟩
    rw [clear, Table.setKey, Table.getElement_setElement _ _ hs hj] at he
    split at he
    · exact absurd he.symm hk
    · exact ⟨i, hib, j, hj, he⟩
  · rintro ⟨i, hib, j, hj, he⟩
    by_cases hsrc : i = src.index ∧ j = src.slot
    · obtain ⟨rfl, rfl⟩ := hsrc
      refine ⟨dst.index, hd.1, dst.slot, hd.2, ?_⟩
      rw [clear, Table.setKey, Table.getElement_setElement _ _ hs hd.2, if_neg hcopied.other,
        hcopied.same, he]
    · refine ⟨i, hib, j, hj, ?_⟩
      rw [clear, Table.setKey, Table.getElement_setElement _ _ hs hj, if_neg hsrc, he]

theorem Keeps.trans {c'' : Cuckoo} (h : Keeps c c') (h' : Keeps c' c'') : Keeps c c'' := by
  refine ⟨h'.1.trans h.1, fun key hk hf => ?_⟩
  have hlater := h'.2 key hk
  rw [h.1] at hlater
  exact hlater (h.2 key hk hf)

/-- What a write needs to know of its slot. -/
theorem Inv.written (hi : Inv s) {index : Nat} (ht : s.thread t = ⟨[], .write l index slot⟩) :
    index < s.cuckoo.buckets ∧ slot < entryWidth ∧
      ((s.cuckoo.table.getElement index slot).key = 0 ∨
        (s.cuckoo.table.getElement index slot).key = l.element.key) := by
  obtain ⟨hl, hbk, hs, hold⟩ := hi.code ht
  refine ⟨?_, hs, hold⟩
  rw [Bucket, hl.one, hl.two] at hbk
  rcases hbk with he | he <;> rw [he] <;> exact hash_lt hi.pos _ _

/-- **One step** adds the key of a write and changes the set of keys in no other way. -/
theorem Inv.step_keys (hi : Inv s) (h : Workers.step s e = some s') :
    s'.cuckoo.keys = s.cuckoo.keys ∪ {key | s.adds e.thread = some key} := by
  have hsame : ∀ c : Cuckoo, c.keys = s.cuckoo.keys → s.adds e.thread = none →
      c.keys = s.cuckoo.keys ∪ {key | s.adds e.thread = some key} := by
    intro c hc hadds
    rw [hc, hadds]
    simp
  have heffect := step_effect h
  generalize s'.cuckoo = c at heffect
  cases heffect with
  | none hadds => exact hsame _ rfl hadds
  | copy ht hmove =>
    obtain ⟨-, hg⟩ := hi.code ht
    exact hsame _ (keys_copy (hg.bounds _ (by simp)) (hg.bounds _ (by simp)) hmove)
      (by rw [State.adds, ht])
  | clear ht =>
    obtain ⟨-, hg, hcopied⟩ := hi.code ht
    exact hsame _ (keys_clear (hg.bounds _ (by simp)) (hg.bounds _ (by simp)).2 hcopied)
      (by rw [State.adds, ht])
  | write ht =>
    obtain ⟨hlt, hs, hold⟩ := hi.written ht
    ext key
    rw [keys_setElement hlt hs hold, Set.mem_union]
    refine or_congr_right ?_
    simp only [State.adds, ht, Set.mem_ofPred_eq]
    split
    · rename_i h0
      rw [h0]
      simp
    · rename_i hne
      rw [Option.some.injEq, eq_comm]
      exact and_iff_right_of_imp fun he => he ▸ hne

/-! ## The discipline -/

namespace State

/-- The lock operation a thread is about to perform. -/
def next (s : State ι) (t : ι) : Option LockOp := (s.thread t).ops.head?

def Owns (s : State ι) (t : ι) (b : Nat) : Prop := (s.locks b).mode t ≠ none

def Busy (s : State ι) (t : ι) : Prop := s.thread t ≠ ⟨[], .idle⟩

end State

structure Disciplined (s : State ι) : Prop where
  acquires : ∀ t b m, s.next t = some (.acquire b m) → ¬ s.Owns t b
  releases : ∀ t b, s.next t = some (.release b) → s.Owns t b
  idle : ∀ t b, ¬ s.Busy t → ¬ s.Owns t b
  /-- A slot changes only under the lock of its bucket. -/
  writes : ∀ e s', Workers.step s e = some s' → ∀ idx, ∀ j < entryWidth,
    s'.cuckoo.table.getElement idx j ≠ s.cuckoo.table.getElement idx j → s.Owns e.thread (bucket idx)
  /-- While some thread is in a call, some thread in a call can take its step. -/
  progress : (∃ t, s.Busy t) → ∃ t, s.Busy t ∧ ∀ choice, Workers.step s (.next t choice) ≠ none

theorem Inv.owns (hi : Inv s) (ht : s.thread t = ⟨[], pc⟩) {b : Nat} :
    s.Owns t b ↔ pc.standing b ≠ none := by
  have hheld := congrFun (hi.plan.held_eq ht) b
  exact not_congr (by rw [hheld])

/-- A write of one slot changes that bucket only. -/
theorem bucket_of_changed {table : Table} {element : Node} {b j : Nat} (hs : slot < entryWidth)
    (hj : j < entryWidth)
    (h : (table.setElement b slot element).getElement idx j ≠ table.getElement idx j) : idx = b := by
  by_contra hne
  refine h ?_
  rw [Table.getElement_setElement _ _ hs hj, if_neg fun hsame => hne hsame.1]

theorem Inv.writes (hi : Inv s) (h : Workers.step s e = some s') {j : Nat} (hj : j < entryWidth)
    (hchanged : s'.cuckoo.table.getElement idx j ≠ s.cuckoo.table.getElement idx j) :
    s.Owns e.thread (bucket idx) := by
  have heffect := step_effect h
  generalize s'.cuckoo = c at heffect hchanged
  cases heffect with
  | none => exact absurd rfl hchanged
  | copy ht =>
    obtain ⟨-, hg⟩ := hi.code ht
    have hslot := (hg.bounds _ (List.mem_cons_self)).2
    rw [bucket_of_changed hslot hj hchanged, hi.owns ht, Pc.standing, holding_ne_none]
    exact mem_under hg _ (by simp)
  | clear ht =>
    obtain ⟨-, hg, -⟩ := hi.code ht
    have hslot := (hg.bounds _ (List.mem_cons_of_mem _ List.mem_cons_self)).2
    rw [bucket_of_changed hslot hj hchanged, hi.owns ht, Pc.standing, holding_ne_none]
    exact mem_under hg _ (by simp)
  | write ht =>
    obtain ⟨-, hbk, hslot, -⟩ := hi.code ht
    rw [bucket_of_changed hslot hj hchanged, hi.owns ht, Pc.standing, holding_ne_none]
    rcases hbk with he | he <;> rw [he] <;> simp

/-- At a point of its code a thread goes on, whatever the unlocked search reads. -/
theorem Inv.goes_on (hi : Inv s) (ht : s.thread t = ⟨[], pc⟩) (hpc : pc ≠ .idle)
    (choice : Choice) : s.advance t choice pc ≠ none := by
  cases pc with
  | idle => exact absurd rfl hpc
  | check l | clear l dst src path | write l index slot => exact Option.some_ne_none _
  | search l =>
    simp only [State.advance]
    split <;> exact Option.some_ne_none _
  | displace l path =>
    obtain ⟨-, hg⟩ := hi.code ht
    rcases path with _ | ⟨dst, _ | ⟨src, path⟩⟩
    · obtain ⟨hop, hlast, -⟩ := hg.start
      cases hlast
    · simp only [State.advance, State.displace]
      split <;> exact Option.some_ne_none _
    · simp only [State.advance, State.displace]
      split <;> exact Option.some_ne_none _

/-- Who keeps a thread waiting is in a call. -/
theorem Inv.busy_of_blockedBy (hi : Inv s) {op : LockOp} {u : ι} (h : op.BlockedBy s.locks u) :
    s.Busy u := by
  intro hidle
  cases op with
  | release b => exact h
  | acquire b m =>
    refine (hi.owns hidle).mp (LockOp.held_of_blockedBy h) ?_
    cases b <;> rfl

theorem Inv.disciplined (hi : Inv s) (hfinite : {t | s.Busy t}.Finite) : Disciplined s where
  acquires t b m h howns := Nat.lt_irrefl _ (hi.plan.allowed h _ howns)
  releases t b h := hi.plan.allowed h
  idle t b hidle := by
    rw [hi.owns (not_not.mp hidle)]
    cases b <;> exact not_not.mpr rfl
  writes e s' h idx j hj hchanged := hi.writes h hj hchanged
  progress hbusy := by
    have hops : {t | (s.thread t).ops ≠ []}.Finite := hfinite.subset fun t ht hidle => by
      rw [Set.mem_ofPred_eq, hidle] at ht
      exact ht rfl
    obtain ⟨t, ht, hfree⟩ := hi.plan.exists_not_waiting hops hbusy
    refine ⟨t, ht, fun choice hstep => ?_⟩
    simp only [Workers.step] at hstep
    split at hstep
    · rename_i op ops pc hthread
      rw [Option.map_eq_none_iff, LockOp.perform_eq_none_iff] at hstep
      obtain ⟨u, hblocked⟩ := hstep
      exact hfree u (hi.busy_of_blockedBy hblocked) op (by rw [hthread, List.head?_cons]) hblocked
    · rename_i pc hthread
      refine hi.goes_on hthread (fun hidle => ht ?_) choice hstep
      rw [hthread, hidle]

/-- Only the thread that steps moves. -/
theorem step_thread (h : Workers.step s e = some s') :
    ∃ x, s'.thread = update s.thread e.thread x := by
  cases e with
  | insert t element =>
    simp only [Workers.step] at h
    split at h <;> cases h
    exact ⟨_, rfl⟩
  | next t choice =>
    simp only [Workers.step] at h
    split at h
    · obtain ⟨locks, -, rfl⟩ := Option.map_eq_some_iff.mp h
      exact ⟨_, rfl⟩
    · rename_i pc ht
      cases pc with
      | idle => cases h
      | check l =>
        cases h
        unfold State.check
        split <;> exact ⟨_, rfl⟩
      | search l =>
        simp only [State.advance] at h
        split at h <;> cases h <;> exact ⟨_, rfl⟩
      | displace l path =>
        rcases path with _ | ⟨dst, _ | ⟨src, path⟩⟩
        · cases h
        · simp only [State.advance, State.displace] at h
          split at h <;> cases h <;> exact ⟨_, rfl⟩
        · simp only [State.advance, State.displace] at h
          split at h <;> cases h <;> exact ⟨_, rfl⟩
      | clear l dst src path =>
        cases h
        unfold State.clear
        dsimp only
        split <;> exact ⟨_, rfl⟩
      | write l index slot =>
        cases h
        exact ⟨_, rfl⟩

omit [DecidableEq ι] in
theorem start_finite (c : Cuckoo) : {t | (State.start c : State ι).Busy t}.Finite := by
  simp [State.Busy, State.start]

/-- **The discipline of the workers.** In every state of every run no thread is about
to take a lock it holds or to give up one it does not hold, a thread outside all calls
holds none, a slot changes only under the lock of its bucket, and while some thread is
in a call some thread in a call can go on. -/
theorem workers_disciplined (hc : c.WellPlaced) {es : List (Event ι)}
    (h : exec Workers.step (State.start c) es = some s) : Disciplined s := by
  have hrun : Inv s ∧ {t | s.Busy t}.Finite := by
    refine exec_invariant (I := fun s => Inv s ∧ {t | s.Busy t}.Finite)
      ⟨start_inv hc, start_finite c⟩ (fun u e v hu hs => ⟨(hu.1.step hs).1, ?_⟩) h
    obtain ⟨x, hx⟩ := step_thread hs
    unfold State.Busy
    rw [hx]
    exact finite_update x hu.2
  exact hrun.1.disciplined hrun.2

/-- Worker 1 waits for the bucket that worker 0 has locked, and worker 0 goes on. -/
theorem workers_disciplined_two : ∃ s : State (Fin 2),
    exec Workers.step (State.start (.new 1)) [.insert 0 ⟨5, 1⟩, .next 0 .quiet,
      .insert 1 ⟨6, 1⟩] = some s ∧
    Workers.step s (.next 1 .quiet) = none ∧ Disciplined s := by
  have hrun : (exec Workers.step (State.start (.new 1)) [.insert (0 : Fin 2) ⟨5, 1⟩,
      .next 0 .quiet, .insert 1 ⟨6, 1⟩]).map
        (fun s => (Workers.step s (.next 1 .quiet)).isNone) = some true := by
    decide +kernel
  obtain ⟨s, hs, hwaits⟩ := Option.map_eq_some_iff.mp hrun
  exact ⟨s, hs, Option.isNone_iff_eq_none.mp hwaits,
    workers_disciplined (WellFormed.new (by decide)).toWellPlaced hs⟩

end ConcurrentComputing.Store.Workers
