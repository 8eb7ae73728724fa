import ConcurrentComputing.StoreThreads

/-! # One entry per key

A worker that finds both buckets of a key full drops the locks for the search and
does not look for the key again. Keys have one entry each exactly as long as every
insert that comes back from its search to write still misses its key. -/

namespace ConcurrentComputing.Store.Threads

open CuckooPath Placement Runs Cuckoo Function

variable {ι : Type} [DecidableEq ι] {s s' s₀ : State ι} {c : Cuckoo}

instance (c : Cuckoo) (key : Word) (idx1 idx2 : Nat) : Decidable (c.Missing key idx1 idx2) := by
  unfold Missing
  infer_instance

/-- The section that follows the search goes through to the write. -/
def Writes (c : Cuckoo) : List Hop → Bool
  | [hop] => !Table.isOccupied (c.table.getElement hop.index hop.slot)
  | [dst, src] => (c.displace dst src).isSome
  | _ => false

/-- The condition on a step: when it is the write of an insert that has dropped
its locks for the search, both its buckets still miss the key. -/
def Fresh (s : State ι) (e : Event ι) : Prop :=
  match e with
  | .next t _ =>
    match s.pc t with
    | .displace l path =>
      Writes s.cuckoo path = true → s.cuckoo.Missing l.element.key l.idx1 l.idx2
    | _ => True
  | _ => True

instance (s : State ι) (e : Event ι) : Decidable (Fresh s e) := by
  unfold Fresh
  repeat' split
  all_goals infer_instance

/-- The distinct keys in the table. -/
def distinctKeys (c : Cuckoo) : Finset Word :=
  (Finset.eraseNone ((cells c.buckets).image c.content)).image Node.key

/-- A remove of the key has answered `TRUE` and no insert of it has written since. -/
def gone (key : Word) (log : List (Op × Result)) : Bool :=
  log.foldl (fun g entry =>
    match entry with
    | (.remove k, .true) => g || k == key
    | (.insert element, .true) | (.insert element, .dup) => g && element.key != key
    | _ => g) false

/-- What the callers count on: one entry per key, so that `size()` is the number of
distinct keys, and no entry for a key that was removed for good. -/
structure OneEntry (s : State ι) : Prop where
  unique : Unique Node.key s.cuckoo.content
  size : s.cuckoo.size = (distinctKeys s.cuckoo).card
  gone : ∀ key, gone key s.log = true → ∀ a ∈ stored s.cuckoo.content, a.key ≠ key

theorem mem_distinctKeys {key : Word} :
    key ∈ distinctKeys c ↔ ∃ a ∈ stored c.content, a.key = key := by
  simp only [distinctKeys, Finset.mem_image, Finset.mem_eraseNone]
  constructor
  · intro ⟨a, ⟨cell, _, ha⟩, hk⟩
    exact ⟨a, ⟨cell, ha⟩, hk⟩
  · intro ⟨a, ⟨cell, ha⟩, hk⟩
    exact ⟨a, ⟨cell, content_mem_cells ha, ha⟩, hk⟩

/-- `size` counts the distinct keys when each has one entry. -/
theorem size_eq_card (hu : Unique Node.key c.content) : c.size = (distinctKeys c).card := by
  rw [size_eq_tally]
  exact tally_eq_card hu (fun _ _ => content_mem_cells) _ fun _ => mem_distinctKeys

/-! ## One step -/

/-- In a well-placed table the two buckets of a call miss its key exactly when no
slot at all has it. -/
theorem missing_iff (hc : c.WellPlaced) {l : Locals} (hl : l.Valid c.buckets) :
    c.Missing l.element.key l.idx1 l.idx2 ↔
      ∀ a ∈ stored c.content, a.key ≠ l.element.key := by
  rw [hl.one, hl.two]
  refine ⟨hc.not_stored, fun hn i hi => ⟨fun he => ?_, fun he => ?_⟩⟩
  · have hne := he.trans_ne hl.nonzero
    exact hn _ ⟨_, content_eq_some.mpr ⟨hash_lt hc.pos _ .one, hi, rfl, hne⟩⟩ he
  · have hne := he.trans_ne hl.nonzero
    exact hn _ ⟨_, content_eq_some.mpr ⟨hash_lt hc.pos _ .two, hi, rfl, hne⟩⟩ he

theorem displaceNext_writes {t : ι} {l : Locals} {path : List Hop}
    (h : s.displaceNext t l path = some s') :
    s'.log = s.log ++ [(.insert l.element, .true)] ↔ Writes s.cuckoo path = true := by
  match path, h with
  | [hop], h =>
    cases h
    unfold claim Writes
    split <;> simp_all [State.settle, State.finish, State.goto]
  | dst :: src :: path, h =>
    simp only [State.displaceNext] at h
    cases hd : s.cuckoo.displace dst src with
    | none =>
      rw [hd] at h
      cases h
      cases path <;> simp [State.settle, State.goto, Writes, hd]
    | some d =>
      rw [hd] at h
      dsimp only at h
      cases path with
      | nil => cases h; simp [State.settle, State.finish, Writes, hd]
      | cons hop path => cases h; simp [State.goto, Writes]

/-- A step is fresh exactly when the key of the node it adds, if any, is in no slot. -/
theorem fresh_iff {e : Event ι} (hi : Inv s) (hv : e.key ≠ some 0) (h : step s e = some s') :
    Fresh s e ↔ ∀ element, s'.log = s.log ++ [(.insert element, .true)] →
      ∀ a ∈ stored s.cuckoo.content, a.key ≠ element.key := by
  cases e with
  | insert t element =>
    simp only [step] at h
    split at h <;> cases h
    simp [Fresh, State.goto]
  | remove t key =>
    simp only [step] at h
    split at h <;> cases h
    simp [Fresh, State.finish]
  | next t choice =>
    have hpc := hi.valid t
    simp only [step] at h
    simp only [Fresh]
    split at h
    · cases h
    · rename_i l heq
      rw [heq] at hpc ⊢
      rcases firstCheck_spec s.cuckoo l.element.key l.idx1 l.idx2 with
        ⟨side, idx, slot, hf, _⟩ | ⟨side, idx, slot, hf, hm, _⟩ | ⟨hf, _⟩ <;>
        rw [hf] at h <;> cases h
      · simp [State.settle, State.finish]
      · have hn := (missing_iff hi.toWellPlaced hpc).mp hm
        simpa [State.settle, State.finish] using hn
      · simp [State.goto]
    · rename_i l heq
      rw [heq]
      split at h <;> cases h <;> simp [State.settle, State.finish, State.goto]
    · rename_i l path heq
      rw [heq] at hpc ⊢
      obtain ⟨new, hs, hnew⟩ := displaceNext_stepped hi hpc.1 hpc.2 h
      dsimp only
      rw [missing_iff hi.toWellPlaced hpc.1, ← displaceNext_writes h]
      refine ⟨fun hf element hlog => ?_, fun hf hlog => hf _ hlog⟩
      have hmem : (Op.insert element, Result.true) ∈ new := by
        rw [hs.log] at hlog
        rw [List.append_cancel_left hlog]
        exact List.mem_singleton_self _
      have helement : element = l.element := by simpa using hnew _ hmem
      subst helement
      exact hf hlog

/-- After a step from a table with one entry per key there still is one exactly
when the step is fresh. -/
theorem step_unique_iff {e : Event ι} (hi : Inv s) (hu : Unique Node.key s.cuckoo.content)
    (hv : e.key ≠ some 0) (h : step s e = some s') :
    Unique Node.key s'.cuckoo.content ↔ Fresh s e := by
  rw [fresh_iff hi hv h]
  obtain ⟨new, hst⟩ := step_stepped hi hv h
  have hnew : ∀ element, s'.log = s.log ++ [(.insert element, .true)] ↔
      new = [(.insert element, .true)] := by
    intro element
    rw [hst.log, List.append_cancel_left_eq]
  simp only [hnew]
  cases hst.effect with
  | moved hm => simp [hm.unique hu]
  | refused op hanswer hc => simp [hc, hu, hanswer.1]
  | @replaced cell a element ha hk hc =>
    rw [hc]
    refine iff_of_true (hu.put fun q b hb hkey => ?_) fun _ he => ?_
    · exact hu _ _ _ _ hb ha (hkey.trans hk.symm)
    · cases he
  | removed _ hc => simp [hc, hu.erase]
  | @wrote d cell element hm hd _ hc =>
    rw [hc]
    constructor
    · intro hu' element' he a ha hk
      cases he
      rw [← hm.stored_eq] at ha
      obtain ⟨q, hq⟩ := ha
      have hne : q ≠ cell := fun he => by rw [he, hd] at hq; cases hq
      exact hne (hu' q cell a element (by rw [update_of_ne hne, hq]) (update_self ..) hk)
    · intro hf
      refine (hm.unique hu).put fun q b hb hk => absurd hk (hf element rfl b ?_)
      rw [← hm.stored_eq]
      exact ⟨q, hb⟩

/-! ## What a remove leaves behind -/

variable {key : Word}

theorem gone_snoc (log : List (Op × Result)) (entry : Op × Result) :
    gone key (log ++ [entry]) =
      match entry with
      | (.remove k, .true) => gone key log || k == key
      | (.insert element, .true) | (.insert element, .dup) => gone key log && element.key != key
      | _ => gone key log := by
  rw [gone, List.foldl_append]
  rfl

/-- From a table with one entry per key, a key stays gone until an insert of it
writes. -/
theorem step_gone {e : Event ι} (hi : Inv s) (hu : Unique Node.key s.cuckoo.content)
    (hv : e.key ≠ some 0) (h : step s e = some s')
    (hg : ∀ key, gone key s.log = true → ∀ a ∈ stored s.cuckoo.content, a.key ≠ key) :
    ∀ key, gone key s'.log = true → ∀ a ∈ stored s'.cuckoo.content, a.key ≠ key := by
  obtain ⟨new, hst⟩ := step_stepped hi hv h
  intro key hgone b hb
  rw [hst.log] at hgone
  cases hst.effect with
  | moved hm =>
    rw [List.append_nil] at hgone
    rw [hm.stored_eq] at hb
    exact hg key hgone b hb
  | @refused op answer hanswer hc =>
    rw [gone_snoc] at hgone
    rw [hc] at hb
    obtain ⟨htrue, hdup⟩ := hanswer
    refine hg key ?_ b hb
    split at hgone
    · rename_i he
      exact absurd (Prod.mk.inj he).2 htrue
    · rename_i he
      exact absurd (Prod.mk.inj he).2 htrue
    · rename_i he
      exact absurd (Prod.mk.inj he).2 hdup
    · exact hgone
  | @replaced cell a element ha hk hc =>
    rw [gone_snoc] at hgone
    simp only [Bool.and_eq_true, bne_iff_ne] at hgone
    rw [hc] at hb
    obtain ⟨q, hq⟩ := hb
    rcases update_some_iff.mp hq with ⟨_, he⟩ | ⟨_, hq⟩
    · cases he
      exact hgone.2
    · exact hg key hgone.1 b ⟨q, hq⟩
  | @wrote d cell element hm hd _ hc =>
    rw [gone_snoc] at hgone
    simp only [Bool.and_eq_true, bne_iff_ne] at hgone
    rw [hc, stored_put hd, hm.stored_eq] at hb
    rcases Set.mem_insert_iff.mp hb with rfl | hb
    · exact hgone.2
    · exact hg key hgone.1 b hb
  | @removed cell a ha hc =>
    rw [gone_snoc] at hgone
    simp only [Bool.or_eq_true, beq_iff_eq] at hgone
    rw [hc, stored_erase hu ha] at hb
    rcases hgone with hgone | rfl
    · exact hg key hgone b hb.1
    · -- the entry taken away was the only one with the key
      intro hk
      obtain ⟨q, hq⟩ := hb.1
      have hcell := hu _ _ _ _ hq ha hk
      rw [hcell, ha] at hq
      exact hb.2 (Option.some.inj hq).symm

/-! ## Runs -/

theorem step_oneEntry_iff {e : Event ι} (hv : e.key ≠ some 0) (hi : Inv s) (ho : OneEntry s)
    (h : step s e = some s') : Inv s' ∧ (OneEntry s' ↔ Fresh s e) := by
  obtain ⟨_, hst⟩ := step_stepped hi hv h
  rw [← step_unique_iff hi ho.unique hv h]
  refine ⟨hst.inv, fun h' => h'.unique, fun hu => ⟨hu, size_eq_card hu, ?_⟩⟩
  exact step_gone hi ho.unique hv h ho.gone

omit [DecidableEq ι] in
theorem start_oneEntry (hc : c.WellFormed) : OneEntry (State.start c : State ι) :=
  ⟨hc.unique, size_eq_card hc.unique, fun _ h => by cases h⟩

/-- **One entry per key.** From a well-formed table, every state of a run has one
entry per key, `size()` equal to the number of distinct keys and nothing left of
a key removed for good, exactly when every step of the run is fresh. -/
theorem one_entry_iff_fresh (hc : c.WellFormed) {es : List (Event ι)} (hv : Nonzero es)
    (h : exec step (State.start c) es = some s) :
    (∀ k u, exec step (State.start c) (es.take k) = some u → OneEntry u) ↔
      Meets step Fresh (State.start c) es :=
  prefixes_iff_meets (E := fun e : Event ι => e.key ≠ some 0)
    (fun _ _ _ hv hi ho hs => step_oneEntry_iff hv hi ho hs)
    (start_inv hc.toWellPlaced) (start_oneEntry hc) hv h

/-- A call of `insert` that ends in its first section. -/
def quickInsert (t : Nat) (key : Word) : List (Event Nat) :=
  [.insert t ⟨key, 0⟩, .next t {}]

/-- Thread 0 fills the first of two buckets, the only one for the key 2, with keys
that may move to the second. -/
def fullBucket : List (Event Nat) := [4, 12, 18, 20, 22, 32, 36, 46].flatMap (quickInsert 0)

/-- One insert of 2 alone moves the key 4 and writes; 2 is then removed and gone. -/
def oneInsert : List (Event Nat) :=
  fullBucket ++ [.insert 1 ⟨2, 7⟩, .next 1 {}, .next 1 {}, .next 1 {}, .remove 2 2]

theorem one_entry_iff_fresh_alone :
    ∃ s, exec step (State.start (.new 2)) oneInsert = some s ∧ OneEntry s ∧
      s.cuckoo.size = 8 := by
  have hrun : (exec step (State.start (.new 2)) oneInsert).map (fun s => s.cuckoo.size) =
      some 8 := by
    decide +kernel
  have hv : Nonzero oneInsert := by
    unfold Nonzero
    decide
  obtain ⟨s, hs, hsize⟩ := Option.map_eq_some_iff.mp hrun
  have hm : Meets step Fresh (State.start (.new 2)) oneInsert := by
    decide +kernel
  have hall : exec step (State.start (.new 2)) (oneInsert.take oneInsert.length) = some s := by
    rw [List.take_length]
    exact hs
  have hone := (one_entry_iff_fresh (.new (by decide)) hv hs).mpr hm _ s hall
  exact ⟨s, hs, hone, hsize⟩

/-- Threads 1 and 2 both find 2 missing and its bucket full, and each moves an entry
of its own out of it and writes. A remove takes one of the two entries. -/
def twoInserts : List (Event Nat) :=
  fullBucket ++ [.insert 1 ⟨2, 7⟩, .insert 2 ⟨2, 9⟩, .next 1 {}, .next 2 {}, .next 1 {},
    .next 2 ⟨fun _ => 1, fun _ _ => 0, fun _ => 0⟩, .next 1 {}, .next 2 {}, .remove 0 2]

theorem two_inserts_enter_twice :
    ¬ ∀ s, exec step (State.start (.new 2)) twoInserts = some s →
      ∀ k u, exec step (State.start (.new 2)) (twoInserts.take k) = some u → OneEntry u := by
  intro h
  have hrun : (exec step (State.start (.new 2)) twoInserts).map
      (fun s => (gone 2 s.log, s.cuckoo.contains 2)) = some (true, .true) := by
    decide +kernel
  obtain ⟨s, hs, hboth⟩ := Option.map_eq_some_iff.mp hrun
  obtain ⟨hgone, hcontains⟩ := Prod.mk.inj hboth
  have hall : exec step (State.start (.new 2)) (twoInserts.take twoInserts.length) = some s := by
    rw [List.take_length]
    exact hs
  have hone := h s hs _ s hall
  have hv : Nonzero twoInserts := by
    unfold Nonzero
    decide
  have hplaced := (run_inv (start_inv (WellFormed.new (by decide)).toWellPlaced) hv hs).toWellPlaced
  obtain ⟨val, hval⟩ := (contains_iff hplaced (by decide)).mp hcontains
  exact hone.gone 2 hgone _ hval rfl

end ConcurrentComputing.Store.Threads
