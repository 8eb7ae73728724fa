import ConcurrentComputing.TMCuckoo

/-! # Inserts between their block and their write

A slot is chosen in one block and written after it, so whatever fills the slot in
between is overwritten. A value whose insert has returned true stays in the tables
exactly as long as no write hits the last copy of such a value. -/

namespace ConcurrentComputing.TMCuckoo

open CuckooPath TwoTable Runs Function
open TwoTable.Threads (Locals Choice Event)
open TwoTable.Cuckoo (Bucket view_write write_buckets)

variable {ι : Type} [DecidableEq ι] {s s' s₀ : State ι} {c c' : Cuckoo} {t : ι} {l : Locals}
  {v w : Val} {side : Side} {idx slot : Nat}

/-- An insert of `v` has returned true and no remove of `v` was called since. -/
def acked (v : Val) (log : List (Op × Bool)) : Bool :=
  log.foldl (fun kept entry =>
    match entry with
    | (.insert w, true) => kept || w == v
    | (.remove w, _) => kept && w != v
    | _ => kept) false

/-- Every such value is found in one of its two buckets. -/
def Kept (s : State ι) : Prop := ∀ v ≠ 0, acked v s.log = true → contains s.cuckoo v = true

/-- A slot of the two buckets of `v` other than the given one holds `v`. -/
def Elsewhere (c : Cuckoo) (v : Val) (side : Side) (idx slot : Nat) : Prop :=
  ∃ side', ∃ slot' < width, (side', hash c.buckets v side', slot') ≠ (side, idx, slot) ∧
    c.view side' (hash c.buckets v side') slot' = v

instance : Decidable (Elsewhere c v side idx slot) := by
  unfold Elsewhere
  infer_instance

/-- The condition on a step: when it is the write of an insert, its slot is empty or
holds a value that may go: the one that is written, one with another copy, or one
that no insert has answered for since it was removed. -/
def Harmless (s : State ι) (e : Event ι) : Prop :=
  match e with
  | .next t _ =>
    match s.pc t with
    | .write l side idx slot =>
      let w := s.cuckoo.view side idx slot
      w ≠ 0 → w ≠ l.val → acked w s.log = true → Elsewhere s.cuckoo w side idx slot
    | _ => True
  | _ => True

instance (s : State ι) : ∀ e : Event ι, Decidable (Harmless s e)
  | .next t _ => by
    dsimp only [Harmless]
    split <;> infer_instance
  | .insert _ _ | .remove _ _ | .contains _ _ => isTrue trivial

/-! ## What is found -/

theorem find_iff {t : Table} : find t v idx = true ↔ ∃ i < width, t.elements idx i = v := by
  simp [find]

theorem findSlot_some {t : Table} (h : findSlot t v idx = some slot) : t.elements idx slot = v := by
  have hp := List.find?_some h
  simpa using hp

theorem isAvailable_some {t : Table} (h : isAvailable t idx = some slot) : slot < width :=
  List.mem_range.mp (List.mem_of_find?_eq_some h)

theorem contains_iff : contains c v = true ↔
    ∃ side, ∃ slot < width, c.view side (hash c.buckets v side) slot = v := by
  unfold contains
  rw [Bool.or_eq_true, find_iff, find_iff]
  constructor
  · intro h
    rcases h with ⟨i, hi, he⟩ | ⟨i, hi, he⟩
    · exact ⟨.one, i, hi, he⟩
    · exact ⟨.two, i, hi, he⟩
  · intro ⟨side, i, hi, he⟩
    cases side with
    | one => exact Or.inl ⟨i, hi, he⟩
    | two => exact Or.inr ⟨i, hi, he⟩

/-- After a write a value is found where the write did not go, or it was written to
a bucket of its own. -/
theorem contains_write (val : Val) : contains (c.write side idx slot val) v = true ↔
    Elsewhere c v side idx slot ∨ (v = val ∧ idx = hash c.buckets v side ∧ slot < width) := by
  rw [contains_iff]
  simp only [write_buckets, view_write]
  constructor
  · intro ⟨s, j, hj, he⟩
    split at he
    · rename_i heq
      obtain ⟨rfl, hidx, rfl⟩ := heq
      exact Or.inr ⟨he.symm, hidx.symm, hj⟩
    · rename_i hne
      exact Or.inl ⟨s, j, hj, by simpa using hne, he⟩
  · intro h
    rcases h with ⟨s, j, hj, hne, he⟩ | ⟨rfl, rfl, hs⟩
    · exact ⟨s, j, hj, by rw [if_neg (by simpa using hne), he]⟩
    · exact ⟨side, slot, hs, by simp⟩

theorem Elsewhere.contains (h : Elsewhere c v side idx slot) : contains c v = true := by
  obtain ⟨s, j, hj, _, he⟩ := h
  exact contains_iff.mpr ⟨s, j, hj, he⟩

/-- A value that the given slot does not hold is elsewhere. -/
theorem elsewhere_of_ne (h : contains c v = true) (hne : c.view side idx slot ≠ v) :
    Elsewhere c v side idx slot := by
  obtain ⟨s, j, hj, he⟩ := contains_iff.mp h
  refine ⟨s, j, hj, fun heq => hne ?_, he⟩
  obtain ⟨rfl, hidx⟩ := Prod.mk.inj heq
  obtain ⟨rfl, rfl⟩ := Prod.mk.inj hidx
  exact he

theorem remove_buckets (c : Cuckoo) (v : Val) : (remove c v).2.buckets = c.buckets := by
  unfold remove
  dsimp only
  split
  · exact write_buckets ..
  · split
    · exact write_buckets ..
    · rfl

/-- A remove takes away copies of its own value only. -/
theorem contains_remove (hne : w ≠ v) (h : contains c v = true) :
    contains (remove c w).2 v = true := by
  unfold remove
  dsimp only
  split
  · rename_i slot hf
    exact (contains_write 0).mpr
      (Or.inl (elsewhere_of_ne h fun he => hne ((findSlot_some hf).symm.trans he)))
  · split
    · rename_i slot hf
      exact (contains_write 0).mpr
        (Or.inl (elsewhere_of_ne h fun he => hne ((findSlot_some hf).symm.trans he)))
    · exact h

theorem displace_buckets {dst src : Hop} (h : c.displace dst src = some c') :
    c'.buckets = c.buckets := by
  simp only [Cuckoo.displace, Option.ite_none_left_eq_some, Option.some.injEq] at h
  obtain ⟨_, rfl⟩ := h
  simp

/-- A displacement moves an element to its other bucket. -/
theorem contains_displace {dst src : Hop} (hs : dst.slot < width) (hv : v ≠ 0)
    (h : c.displace dst src = some c') (hc : contains c v = true) : contains c' v = true := by
  simp only [Cuckoo.displace, Option.ite_none_left_eq_some, Bool.or_eq_true, not_or,
    Bool.not_eq_true, Bool.not_eq_eq_eq_not, Bool.not_true, bne_eq_false_iff_eq,
    Table.isOccupied_iff, Table.isOccupied_eq_false, not_not, Option.some.injEq] at h
  obtain ⟨⟨⟨hdst, _⟩, hhash⟩, rfl⟩ := h
  refine (contains_write 0).mpr (Or.inl ?_)
  by_cases hw : c.view src.table src.index src.slot = v
  · -- the element that moves is the one looked for
    rw [hw] at hhash ⊢
    refine ⟨src.table.other, dst.slot, hs, fun he => ?_, ?_⟩
    · have hside : src.table.other = src.table := (Prod.mk.inj he).1
      cases hsrc : src.table <;> rw [hsrc] at hside <;> cases hside
    · rw [write_buckets, view_write, hhash, if_pos ⟨rfl, rfl, rfl⟩]
  · obtain ⟨s, j, hj, hne, he⟩ := elsewhere_of_ne hc hw
    refine ⟨s, j, hj, by simpa using hne, ?_⟩
    rw [write_buckets, view_write, if_neg, he]
    intro hsame
    obtain ⟨hside, hidx, hslot⟩ := hsame
    rw [hside, ← hside, hidx, hslot, hside, hdst] at he
    exact hv he.symm

/-! ## What is owed -/

theorem acked_insert (log : List (Op × Bool)) :
    acked v (log ++ [(.insert w, true)]) = (acked v log || w == v) := by
  simp [acked, List.foldl_append]

theorem acked_remove (log : List (Op × Bool)) (answer : Bool) :
    acked v (log ++ [(.remove w, answer)]) = (acked v log && w != v) := by
  simp [acked, List.foldl_append]

theorem acked_duplicate (log : List (Op × Bool)) :
    acked v (log ++ [(.insert w, false)]) = acked v log := by
  simp [acked, List.foldl_append]

theorem acked_contains (log : List (Op × Bool)) (answer : Bool) :
    acked v (log ++ [(.contains w, answer)]) = acked v log := by
  simp [acked, List.foldl_append]

/-! ## One step -/

def Located (buckets : Nat) (l : Locals) : Prop :=
  l.idx1 = hash buckets l.val .one ∧ l.idx2 = hash buckets l.val .two

/-- What a thread may rely on between its steps. -/
def Pc.Valid (buckets : Nat) : Pc → Prop
  | .idle => True
  | .check l | .search l | .resize l => Located buckets l
  | .displace l path => Located buckets l ∧ (∀ hop ∈ path, hop.slot < width) ∧
      ∀ hop, path.getLast? = some hop → hop.index = hash buckets l.val hop.table
  | .write l side idx slot => idx = hash buckets l.val side ∧ slot < width

structure Inv (s : State ι) : Prop where
  pos : 0 < s.cuckoo.buckets
  valid : ∀ t, (s.pc t).Valid s.cuckoo.buckets

theorem Inv.next (hi : Inv s) (hb : c.buckets = s.cuckoo.buckets) (past : List Cuckoo) {pc : Pc}
    (hpc : pc.Valid s.cuckoo.buckets) (log : List (Op × Bool)) :
    Inv (⟨c, past, update s.pc t pc, log⟩ : State ι) := by
  refine ⟨hb ▸ hi.pos, ?_⟩
  dsimp only
  rw [hb]
  exact (forall_update_iff _ _).mpr ⟨hpc, fun u _ => hi.valid u⟩

theorem Inv.goto (hi : Inv s) (hb : c.buckets = s.cuckoo.buckets) (pc : Pc)
    (hpc : pc.Valid s.cuckoo.buckets) : Inv (s.goto t c pc) := hi.next hb _ hpc _

theorem Inv.finish (hi : Inv s) (hb : c.buckets = s.cuckoo.buckets) (op : Op) (answer : Bool) :
    Inv (s.finish t c op answer) := hi.next hb _ (show Pc.Valid _ .idle from trivial) _

theorem settle_inv (hi : Inv s) (hb : c.buckets = s.cuckoo.buckets)
    (hl : Located s.cuckoo.buckets l) {r : Result}
    (hr : ∀ side idx slot, r = .success side idx slot →
      idx = hash s.cuckoo.buckets l.val side ∧ slot < width) : Inv (s.settle t l c r) := by
  cases r with
  | duplicate => exact hi.finish hb _ _
  | resize => exact hi.goto hb (.resize l) hl
  | retry => exact hi.goto hb (.check l) hl
  | success side idx slot => exact hi.goto hb (.write l side idx slot) (hr _ _ _ rfl)

/-- Whatever block answers, no acknowledged value is lost by it. -/
theorem settle_kept (hk : Kept s) (hc : ∀ v ≠ 0, contains s.cuckoo v = true → contains c v = true)
    (r : Result) : Kept (s.settle t l c r) := by
  intro v hv ha
  cases r with
  | duplicate =>
    refine hc v hv (hk v hv ?_)
    simpa [State.settle, State.finish, acked_duplicate] using ha
  | resize | retry | success => exact hc v hv (hk v hv ha)

theorem firstCheck_success (hl : Located c.buckets l)
    (h : firstCheck c l.val l.idx1 l.idx2 = some (.success side idx slot)) :
    idx = hash c.buckets l.val side ∧ slot < width := by
  unfold firstCheck at h
  split at h
  · cases h
  · split at h
    · rename_i hf
      cases h
      exact ⟨hl.1, isAvailable_some hf⟩
    · split at h
      · rename_i hf
        cases h
        exact ⟨hl.2, isAvailable_some hf⟩
      · cases h

theorem displaceNext_spec (hi : Inv s) {path : List Hop}
    (hp : (Pc.displace l path).Valid s.cuckoo.buckets) (hk : Kept s)
    (h : s.displaceNext t l path = some s') : Inv s' ∧ Kept s' := by
  obtain ⟨hl, hslots, hlast⟩ := hp
  match path, h with
  | [hop], h =>
    cases h
    refine ⟨settle_inv hi rfl hl fun side idx slot hr => ?_, settle_kept hk (fun _ _ h => h) _⟩
    unfold Cuckoo.claim at hr
    split at hr <;> cases hr
    exact ⟨hlast hop rfl, hslots hop List.mem_cons_self⟩
  | dst :: src :: path, h =>
    simp only [State.displaceNext] at h
    have hdst := hslots dst List.mem_cons_self
    have hrest : ∀ hop ∈ src :: path, hop.slot < width := fun hop hm =>
      hslots hop (List.mem_cons_of_mem _ hm)
    cases hd : s.cuckoo.displace dst src with
    | none =>
      rw [hd] at h
      cases h
      exact ⟨settle_inv hi rfl hl nofun, settle_kept hk (fun _ _ h => h) _⟩
    | some c =>
      rw [hd] at h
      have hb := displace_buckets hd
      have hc : ∀ v ≠ 0, contains s.cuckoo v = true → contains c v = true := fun v hv =>
        contains_displace hdst hv hd
      dsimp only at h
      split at h
      · rename_i hnil
        subst hnil
        cases h
        refine ⟨settle_inv hi hb hl fun side idx slot hr => ?_, settle_kept hk hc _⟩
        cases hr
        exact ⟨hlast src rfl, hrest src List.mem_cons_self⟩
      · cases h
        refine ⟨hi.goto hb (.displace l (src :: path)) ⟨hl, hrest, fun hop hm => ?_⟩,
          fun v hv ha => hc v hv (hk v hv ha)⟩
        exact hlast hop (by rwa [List.getLast?_cons_cons])

/-- The write of an insert keeps what is owed exactly when it is harmless. -/
theorem write_kept_iff (hk : Kept s) (hidx : idx = hash s.cuckoo.buckets l.val side)
    (hs : slot < width) :
    Kept (s.finish t (s.cuckoo.write side idx slot l.val) (.insert l.val) true) ↔
      (s.cuckoo.view side idx slot ≠ 0 → s.cuckoo.view side idx slot ≠ l.val →
        acked (s.cuckoo.view side idx slot) s.log = true →
        Elsewhere s.cuckoo (s.cuckoo.view side idx slot) side idx slot) := by
  unfold Kept State.finish
  dsimp only
  simp only [acked_insert, contains_write, Bool.or_eq_true, beq_iff_eq]
  constructor
  · intro h h0 hne ha
    exact (h _ h0 (Or.inl ha)).resolve_right fun he => hne he.1
  · intro h v hv ha
    by_cases hval : v = l.val
    · exact Or.inr ⟨hval, hval ▸ hidx, hs⟩
    · have hacked := ha.resolve_right fun he => hval he.symm
      by_cases hw : s.cuckoo.view side idx slot = v
      · subst hw
        exact Or.inl (h hv hval hacked)
      · exact Or.inl (elsewhere_of_ne (hk v hv hacked) hw)

/-- **One step** keeps what is owed exactly when it is harmless. -/
theorem step_kept_iff {e : Event ι} (hi : Inv s) (hk : Kept s) (h : step s e = some s') :
    Inv s' ∧ (Kept s' ↔ Harmless s e) := by
  cases e with
  | insert t val =>
    simp only [step] at h
    split at h <;> cases h
    exact ⟨hi.goto rfl (.check _) ⟨rfl, rfl⟩, iff_of_true (fun v hv ha => hk v hv ha) trivial⟩
  | remove t val =>
    simp only [step] at h
    split at h <;> cases h
    refine ⟨hi.finish (remove_buckets _ _) _ _, iff_of_true (fun v hv ha => ?_) trivial⟩
    rw [State.finish, acked_remove, Bool.and_eq_true, bne_iff_ne] at ha
    exact contains_remove ha.2 (hk v hv ha.1)
  | contains t val =>
    simp only [step] at h
    split at h <;> cases h
    refine ⟨hi.finish rfl _ _, iff_of_true (fun v hv ha => ?_) trivial⟩
    rw [State.finish, acked_contains] at ha
    exact hk v hv ha
  | next t choice =>
    have hpc := hi.valid t
    simp only [step] at h
    unfold Harmless
    dsimp only
    split at h
    · cases h
    · cases h
    · rename_i l heq
      rw [heq] at hpc ⊢
      split at h <;> cases h
      · rename_i r hf
        exact ⟨settle_inv hi rfl hpc fun _ _ _ hr => firstCheck_success hpc (hr ▸ hf),
          iff_of_true (settle_kept hk (fun _ _ h => h) _) trivial⟩
      · exact ⟨hi.goto rfl (.search l) hpc, iff_of_true (fun v hv ha => hk v hv ha) trivial⟩
    · rename_i l heq
      rw [heq] at hpc ⊢
      split at h
      · split at h <;> cases h
        · exact ⟨hi.goto rfl (.resize l) hpc, iff_of_true (fun v hv ha => hk v hv ha) trivial⟩
        · rename_i path hp
          have hlt : ∀ k side, hash s.cuckoo.buckets k side < s.cuckoo.buckets :=
            hash_lt hi.pos
          have hgood := findPath_good (Nat.succ_pos 49 : 0 < width) hlt
            (hpc.1 ▸ hlt _ _) (hpc.2 ▸ hlt _ _) hp
          refine ⟨hi.goto rfl (.displace l path)
            ⟨hpc, fun hop hm => (hgood.bounds hop hm).2, fun hop hm => ?_⟩,
            iff_of_true (fun v hv ha => hk v hv ha) trivial⟩
          obtain ⟨last, hlast, hbucket⟩ := hgood.start
          cases hlast.symm.trans hm
          rcases hbucket with ⟨hside, hidx⟩ | ⟨hside, hidx⟩
          · rw [hside, hidx, hpc.1]
          · rw [hside, hidx, hpc.2]
      · cases h
    · rename_i l path heq
      rw [heq] at hpc ⊢
      obtain ⟨hinv, hkept⟩ := displaceNext_spec hi hpc hk h
      exact ⟨hinv, iff_of_true hkept trivial⟩
    · rename_i l side idx slot heq
      rw [heq] at hpc ⊢
      cases h
      exact ⟨hi.finish (write_buckets ..) _ _, write_kept_iff hk hpc.1 hpc.2⟩

/-! ## Runs -/

omit [DecidableEq ι] in
theorem start_inv (hpos : 0 < c.buckets) : Inv (State.start c : State ι) :=
  ⟨hpos, fun _ => trivial⟩

omit [DecidableEq ι] in
theorem start_kept : Kept (State.start c : State ι) := fun _ _ ha => by
  cases ha

/-- **Inserts are kept.** In every state of a run every value whose insert has
returned true, with no remove of it called since, is in one of its two buckets
exactly when every write of the run is harmless. -/
theorem inserts_kept_iff (hpos : 0 < c.buckets) {es : List (Event ι)}
    (h : exec step (State.start c) es = some s) :
    (∀ k u, exec step (State.start c) (es.take k) = some u → Kept u) ↔
      Meets step Harmless (State.start c) es :=
  prefixes_iff_meets (E := fun _ => True) (fun _ _ _ _ hi hk hs => step_kept_iff hi hk hs)
    (start_inv hpos) start_kept (fun _ _ => trivial) h

/-- Two inserts into one bucket, the second after the first has written. -/
theorem inserts_kept_in_turn : ∃ s : State Bool, exec step (State.start (.new 1))
    [.insert false 5, .next false {}, .next false {}, .insert true 7, .next true {},
      .next true {}, .remove false 5] = some s ∧ contains s.cuckoo 7 = true := by
  have hrun : (exec step (State.start (.new 1) : State Bool)
      [.insert false 5, .next false {}, .next false {}, .insert true 7, .next true {},
        .next true {}, .remove false 5]).map (fun s => acked 7 s.log) = some true := by
    decide +kernel
  obtain ⟨s, hs, hacked⟩ := Option.map_eq_some_iff.mp hrun
  exact ⟨s, hs, (inserts_kept_iff (by decide) hs).mpr (by decide +kernel) 7 s hs 7 (by decide)
    hacked⟩

/-- Both threads are given the first slot before either writes it. -/
theorem overwritten_insert_lost : ¬ ∀ s : State Bool, exec step (State.start (.new 1))
    [.insert false 5, .insert true 7, .next false {}, .next true {}, .next false {},
      .next true {}] = some s → Kept s := by
  intro h
  have hrun : (exec step (State.start (.new 1) : State Bool)
      [.insert false 5, .insert true 7, .next false {}, .next true {}, .next false {},
        .next true {}]).map (fun s => (acked 5 s.log, contains s.cuckoo 5)) =
          some (true, false) := by
    decide +kernel
  obtain ⟨s, hs, hboth⟩ := Option.map_eq_some_iff.mp hrun
  obtain ⟨hacked, hlost⟩ := Prod.mk.inj hboth
  have hkept := h s hs 5 (by decide) hacked
  rw [hlost] at hkept
  cases hkept

end ConcurrentComputing.TMCuckoo
