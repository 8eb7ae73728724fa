import ConcurrentComputing.StoreWorkers
import ConcurrentComputing.RemoteGet

/-! # A one-sided lookup beside the workers

A displacement only ever moves a node to the second bucket of its key, and copies it
there before it clears the old slot. So a key that has left the first bucket when a
client reads it is in the second one from then on, where the client looks next. -/

namespace ConcurrentComputing.Store.Workers

open CuckooPath Placement Runs Cuckoo ReadWriteLock LockOrder BucketLocks Function

variable {ι : Type} [DecidableEq ι] {s s' : State ι} {c c' : Cuckoo} {t : ι} {l : Locals}
  {ops : List LockOp} {pc pc' : Pc} {key : Word} {idx slot : Nat} {dst src : Hop}

/-! ## The writes -/

/-- A write to an empty slot, or over a node with the same key, takes no key out of
any bucket. -/
theorem find_setElement {table : Table} {element : Node} {b : Nat} (hs : slot < entryWidth)
    (hold : (table.getElement b slot).key = 0 ∨ (table.getElement b slot).key = element.key)
    (hk : key ≠ 0) (h : table.find key idx = true) :
    (table.setElement b slot element).find key idx = true := by
  obtain ⟨j, hj, he⟩ := Table.find_iff.mp h
  refine Table.find_iff.mpr ⟨j, hj, ?_⟩
  rw [Table.getElement_setElement _ _ hs hj]
  split
  · rename_i heq
    obtain ⟨rfl, rfl⟩ := heq
    rcases hold with h0 | hsame
    · exact absurd (he.symm.trans h0) hk
    · exact hsame.symm.trans he
  · exact he

/-- The node of `src` has been copied to `dst`, a slot of its second bucket. -/
structure Copied (c : Cuckoo) (dst src : Hop) : Prop where
  nonzero : (c.table.getElement src.index src.slot).key ≠ 0
  hash : hash c.buckets (c.table.getElement src.index src.slot).key .two = dst.index
  same : (c.table.getElement dst.index dst.slot).key = (c.table.getElement src.index src.slot).key
  other : ¬ (dst.index = src.index ∧ dst.slot = src.slot)

theorem canMove_iff : canMove c dst src = true ↔
    (c.table.getElement dst.index dst.slot).key = 0 ∧
    (c.table.getElement src.index src.slot).key ≠ 0 ∧
    hash c.buckets (c.table.getElement src.index src.slot).key .two = dst.index := by
  simp [canMove, Table.isOccupied, and_assoc]

theorem copied (hd : dst.slot < entryWidth) (hs : src.slot < entryWidth)
    (h : canMove c dst src = true) : Copied (copy c dst src) dst src := by
  obtain ⟨hempty, hne, hhash⟩ := canMove_iff.mp h
  have hother : ¬ (dst.index = src.index ∧ dst.slot = src.slot) := by
    intro ⟨hi, hj⟩
    rw [hi, hj] at hempty
    exact hne hempty
  have hdst : (copy c dst src).table.getElement dst.index dst.slot =
      c.table.getElement src.index src.slot := by
    rw [copy, Table.getElement_setElement _ _ hd hd, if_pos ⟨rfl, rfl⟩]
  have hsrc : (copy c dst src).table.getElement src.index src.slot =
      c.table.getElement src.index src.slot := by
    rw [copy, Table.getElement_setElement _ _ hd hs, if_neg fun he => hother ⟨he.1.symm, he.2.symm⟩]
  exact ⟨hsrc ▸ hne, by rw [hsrc]; exact hhash, by rw [hdst, hsrc], hother⟩

/-- Clearing the old slot leaves the key in its second bucket. -/
theorem find_clear (h : Copied c dst src) (hd : dst.slot < entryWidth) (hs : src.slot < entryWidth)
    (hf : c.table.find key (hash c.buckets key .two) = true) :
    (clear c src).table.find key (hash c.buckets key .two) = true := by
  obtain ⟨j, hj, he⟩ := Table.find_iff.mp hf
  by_cases hsrc : hash c.buckets key .two = src.index ∧ j = src.slot
  · -- the node that is cleared: its copy is in the same bucket
    have hkey : (c.table.getElement src.index src.slot).key = key := by
      rw [← hsrc.1, ← hsrc.2]
      exact he
    have hidx : hash c.buckets key .two = dst.index := hkey ▸ h.hash
    refine Table.find_iff.mpr ⟨dst.slot, hd, ?_⟩
    rw [hidx, clear, Table.setKey, Table.getElement_setElement _ _ hs hd, if_neg h.other, h.same, hkey]
  · refine Table.find_iff.mpr ⟨j, hj, ?_⟩
    rw [clear, Table.setKey, Table.getElement_setElement _ _ hs hj, if_neg hsrc]
    exact he

/-! ## What a thread relies on -/

/-- The buckets whose contents a thread counts on at a point of its code. -/
def Pc.relies : Pc → Finset Nat
  | .clear _ dst src _ => {dst.index, src.index}
  | .write _ index _ => {index}
  | _ => ∅

/-- The locks of those buckets are held. -/
def Covered (pc : Pc) (held : Nat → Option Mode) : Prop :=
  ∀ idx ∈ pc.relies, held (bucket idx) ≠ none

def Pc.standing : Pc → Nat → Option Mode
  | .idle | .search _ => holding none ∅
  | .check l | .write l _ _ => holding none {l.idx1, l.idx2}
  | .displace l path => holding none (under l.idx1 l.idx2 path)
  | .clear l dst src path => holding none (under l.idx1 l.idx2 (dst :: src :: path))

/-- The locals of a call under a bucket count. -/
structure Locals.Valid (buckets : Nat) (l : Locals) : Prop where
  one : l.idx1 = hash buckets l.element.key .one
  two : l.idx2 = hash buckets l.element.key .two

def Pc.Valid (c : Cuckoo) : Pc → Prop
  | .idle => True
  | .check l | .search l => l.Valid c.buckets
  | .displace l path => l.Valid c.buckets ∧ GoodPath c.scheme c.buckets l.idx1 l.idx2 path
  | .clear l dst src path => l.Valid c.buckets ∧
      GoodPath c.scheme c.buckets l.idx1 l.idx2 (dst :: src :: path) ∧ Copied c dst src
  | .write l index slot => l.Valid c.buckets ∧ Bucket l.idx1 l.idx2 index ∧ slot < entryWidth ∧
      ((c.table.getElement index slot).key = 0 ∨
        (c.table.getElement index slot).key = l.element.key)

structure Inv (s : State ι) : Prop extends s.cuckoo.WellPlaced where
  plan : OnPlan Covered Pc.standing s.locks s.thread
  valid : ∀ t, (s.thread t).pc.Valid s.cuckoo

theorem Inv.code (hi : Inv s) (ht : s.thread t = ⟨ops, pc⟩) : pc.Valid s.cuckoo := by
  have hvalid := hi.valid t
  rw [ht] at hvalid
  exact hvalid

/-- What a thread relies on depends on the buckets it relies on only. -/
theorem Pc.Valid.frame (h : pc.Valid c) (hb : c'.buckets = c.buckets)
    (hsame : ∀ idx ∈ pc.relies, ∀ j < entryWidth,
      c'.table.getElement idx j = c.table.getElement idx j) : pc.Valid c' := by
  have hscheme : c'.scheme = c.scheme := by simp only [scheme, hb]
  cases pc with
  | idle => trivial
  | check l | search l =>
    have hl : l.Valid c.buckets := h
    exact (hb ▸ hl : l.Valid c'.buckets)
  | displace l path => exact ⟨hb ▸ h.1, by rw [hscheme, hb]; exact h.2⟩
  | clear l dst src path =>
    obtain ⟨hl, hg, hc⟩ := h
    have hdst := hsame dst.index (by simp [Pc.relies]) dst.slot (hg.bounds dst (by simp)).2
    have hsrc := hsame src.index (by simp [Pc.relies]) src.slot (hg.bounds src (by simp)).2
    refine ⟨hb ▸ hl, by rw [hscheme, hb]; exact hg, ?_, ?_, ?_, hc.other⟩
    · rw [hsrc]; exact hc.nonzero
    · rw [hsrc, hb]; exact hc.hash
    · rw [hsrc, hdst]; exact hc.same
  | write l index slot =>
    obtain ⟨hl, hbk, hs, hk⟩ := h
    rw [← hsame index (by simp [Pc.relies]) slot hs] at hk
    exact ⟨hb ▸ hl, hbk, hs, hk⟩

/-! ## Paths -/

theorem last_bucket {g : Scheme Word} {buckets idx1 idx2 : Nat} {path : List Hop} {hop : Hop}
    (hg : GoodPath g buckets idx1 idx2 path) (h : path.getLast? = some hop) :
    Bucket idx1 idx2 hop.index := (hg.last h).imp And.right And.right

/-- A displacement runs on both its buckets. -/
theorem mem_under {g : Scheme Word} {buckets idx1 idx2 : Nat} {path : List Hop}
    (hg : GoodPath g buckets idx1 idx2 (dst :: src :: path)) :
    ∀ idx ∈ ({dst.index, src.index} : Finset Nat), idx ∈ under idx1 idx2 (dst :: src :: path) := by
  intro idx hidx
  cases path with
  | nil =>
    have hlast : src.index = idx1 ∨ src.index = idx2 := last_bucket hg rfl
    simp only [under, Finset.mem_insert, Finset.mem_singleton] at hidx ⊢
    omega
  | cons => exact hidx

/-! ## Steps -/

theorem standing_bucket (h : pc.standing (bucket idx) ≠ none) :
    pc.standing (bucket idx) = some .write := by
  have hholding : ∀ {S : Finset Nat}, holding none S (bucket idx) ≠ none →
      holding none S (bucket idx) = some .write := fun h => if_pos (holding_ne_none.mp h)
  cases pc <;>
  · rw [Pc.standing] at h ⊢
    exact hholding h

/-- A thread at a point of its code that goes on to the next: it may have changed
the buckets it holds, and no thread relies on those but itself. -/
theorem Inv.goto (hi : Inv s) (ht : s.thread t = ⟨[], pc⟩) (hplaced : c.WellPlaced)
    (hb : c.buckets = s.cuckoo.buckets)
    (hsame : ∀ idx, pc.standing (bucket idx) = none → ∀ j < entryWidth,
      c.table.getElement idx j = s.cuckoo.table.getElement idx j)
    (hplan : Plan (Covered pc') pc.standing ops pc'.standing) (hvalid : pc'.Valid c) :
    Inv (s.goto t c ops pc') := by
  refine ⟨hplaced, hi.plan.goto ht hplan, fun u => ?_⟩
  dsimp only [State.goto]
  by_cases hu : u = t
  · rw [hu, update_self]
    exact hvalid
  · rw [update_of_ne hu]
    refine (hi.valid u).frame hb fun idx hidx => hsame idx ?_
    by_contra hstanding
    have hheld := congrFun (hi.plan.held_eq ht) (bucket idx)
    have hwrite := hheld.trans (standing_bucket hstanding)
    exact hu (RWLock.eq_of_write hwrite ((hi.plan u).guard idx hidx)).symm

/-- A thread that goes on without a write. -/
theorem Inv.pass (hi : Inv s) (ht : s.thread t = ⟨[], pc⟩)
    (hplan : Plan (Covered pc') pc.standing ops pc'.standing) (hvalid : pc'.Valid s.cuckoo) :
    Inv (s.goto t s.cuckoo ops pc') :=
  hi.goto ht hi.toWellPlaced rfl (fun _ _ _ _ => rfl) hplan hvalid

/-- A write of one slot of a bucket that is held. -/
theorem same_of_held {table : Table} {element : Node} {b : Nat} (hs : slot < entryWidth)
    (hheld : pc.standing (bucket b) ≠ none) :
    ∀ idx, pc.standing (bucket idx) = none → ∀ j < entryWidth,
      (table.setElement b slot element).getElement idx j = table.getElement idx j := by
  intro idx hnone j hj
  rw [Table.getElement_setElement _ _ hs hj, if_neg]
  intro he
  rw [he.1] at hnone
  exact hheld hnone

/-- No key leaves its second bucket. -/
def Keeps (c c' : Cuckoo) : Prop :=
  c'.buckets = c.buckets ∧ ∀ key ≠ 0, c.table.find key (hash c.buckets key .two) = true →
    c'.table.find key (hash c.buckets key .two) = true

theorem Keeps.refl (c : Cuckoo) : Keeps c c := ⟨rfl, fun _ _ h => h⟩

theorem covered_nil (h : pc.relies = ∅) (held : Nat → Option Mode) : Covered pc held := by
  intro idx hidx
  rw [h] at hidx
  exact absurd hidx (Finset.notMem_empty idx)

theorem Inv.check (hi : Inv s) (ht : s.thread t = ⟨[], .check l⟩) : Inv (s.check t l) := by
  have hl : l.Valid s.cuckoo.buckets := hi.code ht
  have hwrite : ∀ {index slot}, Bucket l.idx1 l.idx2 index → slot < entryWidth →
      ((s.cuckoo.table.getElement index slot).key = 0 ∨
        (s.cuckoo.table.getElement index slot).key = l.element.key) →
      Inv (s.goto t s.cuckoo [] (.write l index slot)) := by
    intro index slot hbk hs hk
    refine hi.pass ht (plan_done (fun idx hidx => ?_) rfl) ⟨hl, hbk, hs, hk⟩
    rw [Finset.mem_singleton.mp hidx, holding_ne_none]
    rcases hbk with rfl | rfl <;> simp
  unfold State.check
  rcases firstCheck_spec s.cuckoo l.element.key l.idx1 l.idx2 with
    ⟨side, index, slot, hf, hbk, hs, hk⟩ | ⟨side, index, slot, hf, _, hbk, hs, h0⟩ | ⟨hf, _⟩ <;>
    rw [hf]
  · exact hwrite hbk hs (Or.inr hk)
  · exact hwrite hbk hs (Or.inl h0)
  · exact hi.pass ht (unlockTwo_plan fun _ => covered_nil rfl _) hl

theorem Inv.displace (hi : Inv s) {path : List Hop} (ht : s.thread t = ⟨[], .displace l path⟩)
    (h : s.displace t l path = some s') : Inv s' ∧ Keeps s.cuckoo s'.cuckoo := by
  obtain ⟨hl, hg⟩ := hi.code ht
  have hfree : ∀ S, Covered (.check l) (holding none S) := fun _ => covered_nil rfl _
  match path, h with
  | [hop], h =>
    simp only [State.displace] at h
    split at h
    · cases h
      exact ⟨hi.pass ht ((unlockTwo_plan hfree).append (lockTwo_plan hfree)) hl, .refl _⟩
    · rename_i hempty
      cases h
      have hbk : Bucket l.idx1 l.idx2 hop.index := last_bucket hg rfl
      refine ⟨hi.pass ht (plan_done (fun idx hidx => ?_) rfl) ⟨hl, hbk, (hg.bounds hop (by simp)).2,
        Or.inl (by simpa [Table.isOccupied] using hempty)⟩, .refl _⟩
      rw [Finset.mem_singleton.mp hidx, holding_ne_none]
      rcases hbk with he | he <;> rw [he] <;> simp [under]
  | dst :: src :: path, h =>
    have hdst := hg.bounds dst (by simp)
    have hsrc := hg.bounds src (by simp)
    simp only [State.displace] at h
    split at h
    · rename_i hmove
      cases h
      obtain ⟨hempty, hne, hhash⟩ := canMove_iff.mp hmove
      have hheld : ∀ idx ∈ ({dst.index, src.index} : Finset Nat),
          Pc.standing (.displace l (dst :: src :: path)) (bucket idx) ≠ none := by
        intro idx hidx
        rw [Pc.standing, holding_ne_none]
        exact mem_under hg idx hidx
      have hplaced : (copy s.cuckoo dst src).WellPlaced := by
        refine ⟨hi.pos, ?_⟩
        rw [copy, content_setElement _ hdst.1 hdst.2, if_neg hne]
        exact hi.placed.put ⟨Or.inr hhash.symm, hdst.2⟩
      refine ⟨hi.goto ht hplaced rfl (same_of_held hdst.2 (hheld _ (by simp)))
        (plan_done (fun idx hidx => hheld idx hidx) rfl) ⟨hl, hg, copied hdst.2 hsrc.2 hmove⟩,
        rfl, fun key hk hf => find_setElement hdst.2 (Or.inl hempty) hk hf⟩
    · cases h
      refine ⟨hi.pass ht ?_ hl, .refl _⟩
      cases path with
      | nil => exact (unlockThree_plan hfree).append (lockTwo_plan hfree)
      | cons => exact (unlockTwo_plan hfree).append (lockTwo_plan hfree)

theorem Inv.clear (hi : Inv s) {path : List Hop} (ht : s.thread t = ⟨[], .clear l dst src path⟩) :
    Inv (s.clear t l dst src path) ∧ Keeps s.cuckoo (s.clear t l dst src path).cuckoo := by
  obtain ⟨hl, hg, hcopied⟩ := hi.code ht
  have hdst := hg.bounds dst (by simp)
  have hsrc := hg.bounds src (by simp)
  have hplaced : (Workers.clear s.cuckoo src).WellPlaced := by
    refine ⟨hi.pos, ?_⟩
    rw [Workers.clear, content_setKey hsrc.1 hsrc.2]
    exact hi.placed.erase
  have hheld : Pc.standing (.clear l dst src path) (bucket src.index) ≠ none := by
    rw [Pc.standing, holding_ne_none]
    exact mem_under hg _ (by simp)
  have hsame : ∀ idx, Pc.standing (.clear l dst src path) (bucket idx) = none → ∀ j < entryWidth,
      (Workers.clear s.cuckoo src).table.getElement idx j = s.cuckoo.table.getElement idx j :=
    same_of_held hsrc.2 hheld
  have hkeeps : Keeps s.cuckoo (Workers.clear s.cuckoo src) :=
    ⟨rfl, fun key _ hf => find_clear hcopied hdst.2 hsrc.2 hf⟩
  have hempty : ((Workers.clear s.cuckoo src).table.getElement src.index src.slot).key = 0 := by
    rw [Workers.clear, Table.setKey, Table.getElement_setElement _ _ hsrc.2 hsrc.2,
      if_pos ⟨rfl, rfl⟩]
  unfold State.clear
  cases path with
  | nil =>
    have hbk : Bucket l.idx1 l.idx2 src.index := last_bucket hg rfl
    have hcovered : ∀ S : Finset Nat, l.idx1 ∈ S → l.idx2 ∈ S →
        Covered (.write l src.index src.slot) (holding none S) := by
      intro S h1 h2 idx hidx
      rw [Finset.mem_singleton.mp hidx, holding_ne_none]
      rcases hbk with he | he <;> rwa [he]
    refine ⟨hi.goto ht hplaced rfl hsame (unlockOther_plan (hcovered _ ?_ ?_) (hcovered _ ?_ ?_))
      ⟨hl, hbk, hsrc.2, Or.inl hempty⟩, hkeeps⟩ <;> simp
  | cons hop path =>
    have hfree : ∀ S, Covered (.displace l (src :: hop :: path)) (holding none S) := fun _ =>
      covered_nil rfl _
    exact ⟨hi.goto ht hplaced rfl hsame ((unlockTwo_plan hfree).append (enter_plan hfree _))
      ⟨hl, hg.tail⟩, hkeeps⟩

theorem Inv.write (hi : Inv s) {index : Nat} (ht : s.thread t = ⟨[], .write l index slot⟩) :
    Inv (s.write t l index slot) ∧ Keeps s.cuckoo (s.write t l index slot).cuckoo := by
  obtain ⟨hl, hbk, hs, hold⟩ := hi.code ht
  have hheld : Pc.standing (.write l index slot) (bucket index) ≠ none := by
    rw [Pc.standing, holding_ne_none]
    rcases hbk with rfl | rfl <;> simp
  have hhome : home s.cuckoo.buckets l.element (index, slot) := by
    rw [Bucket, hl.one, hl.two] at hbk
    exact ⟨hbk, hs⟩
  have hlt : index < s.cuckoo.buckets := by
    have hmem := home_mem_cells hi.pos hhome
    exact (mem_cells.mp hmem).1
  have hplaced : (⟨s.cuckoo.buckets, s.cuckoo.table.setElement index slot l.element⟩ :
      Cuckoo).WellPlaced := by
    refine ⟨hi.pos, ?_⟩
    rw [content_setElement _ hlt hs]
    split
    · exact hi.placed.erase
    · exact hi.placed.put hhome
  exact ⟨hi.goto ht hplaced rfl (same_of_held hs hheld) (unlockTwo_plan fun _ => covered_nil rfl _)
    trivial, rfl, fun key hk hf => find_setElement hs hold hk hf⟩

theorem Inv.advance (hi : Inv s) {choice : Choice} (ht : s.thread t = ⟨[], pc⟩)
    (h : s.advance t choice pc = some s') : Inv s' ∧ Keeps s.cuckoo s'.cuckoo := by
  cases pc with
  | idle => cases h
  | check l =>
    cases h
    refine ⟨hi.check ht, ?_⟩
    unfold State.check
    split <;> exact .refl _
  | search l =>
    have hl : l.Valid s.cuckoo.buckets := hi.code ht
    simp only [State.advance] at h
    split at h <;> cases h
    · exact ⟨hi.pass ht (plan_done (covered_nil rfl _) rfl) trivial, .refl _⟩
    · rename_i path hp
      have hgood := path_good hi.pos (hl.one ▸ hash_lt hi.pos _ _) (hl.two ▸ hash_lt hi.pos _ _) hp
      exact ⟨hi.pass ht (enter_plan (fun _ => covered_nil rfl _) _) ⟨hl, hgood⟩, .refl _⟩
  | displace l path => exact hi.displace ht h
  | clear l dst src path => cases h; exact hi.clear ht
  | write l index slot => cases h; exact hi.write ht

/-- **One step** keeps every node in one of its buckets and every key that is in its
second bucket there. -/
theorem Inv.step {e : Event ι} (hi : Inv s) (h : step s e = some s') :
    Inv s' ∧ Keeps s.cuckoo s'.cuckoo := by
  cases e with
  | insert t element =>
    simp only [Workers.step] at h
    split at h <;> cases h
    rename_i ht
    exact ⟨hi.pass ht (lockTwo_plan fun _ => covered_nil rfl _) ⟨rfl, rfl⟩, .refl _⟩
  | next t choice =>
    simp only [Workers.step] at h
    split at h
    · rename_i op ops pc ht
      obtain ⟨locks, hp, rfl⟩ := Option.map_eq_some_iff.mp h
      refine ⟨⟨hi.toWellPlaced, hi.plan.perform ht hp, ?_⟩, .refl _⟩
      exact (forall_update_iff s.thread fun _ r => r.pc.Valid s.cuckoo).mpr
        ⟨hi.code ht, fun u _ => hi.valid u⟩
    · rename_i pc ht
      exact hi.advance ht h

theorem start_inv (hc : c.WellPlaced) : Inv (State.start c : State ι) := by
  refine ⟨hc, fun t => ?_, fun _ => trivial⟩
  have hheld : (fun b => ((State.start c : State ι).locks b).mode t) = holding none ∅ := by
    funext b
    cases b <;> rfl
  rw [hheld]
  exact plan_done (covered_nil rfl _) rfl

/-- A key that is in its second bucket at one instant of a run still is at a later
one. -/
theorem find_later {es : List (Event ι)} (hc : c.WellPlaced) {u v : State ι} {t₁ t₂ : Nat}
    (hu : At step (State.start c) es t₁ u) (hv : At step (State.start c) es t₂ v)
    (ht : t₁ ≤ t₂) : Keeps u.cuckoo v.cuckoo := by
  have hiu := exec_invariant (start_inv hc) (fun _ _ _ hi hs => (hi.step hs).1) hu.2
  refine (exec_invariant (I := fun w => Inv w ∧ Keeps u.cuckoo w.cuckoo) ⟨hiu, .refl _⟩ ?_
    (hu.between hv ht)).2
  intro x e y hx hs
  obtain ⟨hi, hb, hf⟩ := hx
  obtain ⟨hiy, hb', hf'⟩ := hi.step hs
  refine ⟨hiy, hb'.trans hb, fun key hk h => ?_⟩
  have hlater := hf' key hk
  rw [hb] at hlater
  exact hlater (hf key hk h)

/-! ## The lookup -/

/-- `Remote::get` with the indices it has computed. The first read sees one table,
the second, made only when the first does not find the key, another. -/
def getBetween (index secondary_index : Nat) (first second : Table) (key : Word) : Result :=
  match Remote.findElement ((List.range entryWidth).map (first.getElement index)) key with
  | .false =>
    Remote.findElement ((List.range entryWidth).map (second.getElement secondary_index)) key
  | found => found

/-- Over a table at rest this is the lookup by bytes. -/
theorem get_eq_getBetween {recovers : Bool} (hb : c.buckets = Remote.size)
    (hindex : 0 ≤ (Remote.hash key .one).toInt) :
    Remote.get recovers (.of c) key = getBetween (Remote.hash key .one).toNat
      (Remote.hash key .two).toNat c.table c.table key := by
  obtain ⟨hqp, hn⟩ := Remote.read_bucket recovers hb (Remote.hash_one_lt hindex)
    (show (true, List.replicate (entryWidth * sizeofNode) (0 : Byte)).1 = true from rfl)
  obtain ⟨_, hn2⟩ := Remote.read_bucket recovers hb (Remote.hash_two_lt key) hqp
  unfold Remote.get getBetween
  dsimp only
  rewrite [hn, hn2]
  rfl

theorem getBetween_iff {index secondary_index : Nat} {first second : Table} :
    getBetween index secondary_index first second key = .true ↔
      first.find key index = true ∨ second.find key secondary_index = true := by
  have hfind : ∀ {table : Table} {i : Nat},
      Remote.findElement ((List.range entryWidth).map (table.getElement i)) key = .true ↔
        table.find key i = true := by
    intro table i
    rw [Remote.findElement_iff, Table.find_iff]
    simp
  unfold getBetween
  split
  · rename_i hfalse
    rw [← hfind, ← hfind, hfalse]
    simp
  · rename_i hne
    have htrue := not_not.mp fun hn => hne (Remote.findElement_false.mpr hn)
    simp [htrue, hfind.mp htrue]

/-- **No miss.** Whatever the workers do, if a key is in the table when a client
reads its first bucket, `get` finds it in one of its two reads. -/
theorem get_never_misses (hc : c.WellPlaced) {es : List (Event ι)} (hk : key ≠ 0)
    {index secondary_index : Nat} (hindex : index = hash c.buckets key .one)
    (hsecondary : secondary_index = hash c.buckets key .two) {u v : State ι} {t₁ t₂ : Nat}
    (hu : At step (State.start c) es t₁ u) (hv : At step (State.start c) es t₂ v)
    (ht : t₁ ≤ t₂) (hin : ∃ a ∈ stored u.cuckoo.content, a.key = key) :
    getBetween index secondary_index u.cuckoo.table v.cuckoo.table key = .true := by
  have hiu := exec_invariant (start_inv hc) (fun _ _ _ hi hs => (hi.step hs).1) hu.2
  have hb : u.cuckoo.buckets = c.buckets := (find_later hc at_zero hu (Nat.zero_le _)).1
  obtain ⟨a, ⟨⟨idx, slot⟩, ha⟩, rfl⟩ := hin
  obtain ⟨hhome, hs⟩ := hiu.placed _ _ ha
  obtain ⟨_, _, he, _⟩ := content_eq_some.mp ha
  have hfound : u.cuckoo.table.find a.key idx = true :=
    Table.find_iff.mpr ⟨slot, hs, by rw [he]⟩
  rw [getBetween_iff, hindex, hsecondary, ← hb]
  dsimp only at hhome
  rcases hhome with rfl | rfl
  · exact Or.inl hfound
  · exact Or.inr ((find_later hc hu hv ht).2 a.key hk hfound)

/-- Keys for the first of two buckets, the only one for the key 2, that may move to
the second. -/
def crowd : List Word := [4, 12, 18, 20, 22, 32, 36, 46]

/-- Worker 0 stores them; worker 1 then finds no room for the key 2 and moves the key
4, which has left the first bucket from step 65 on. -/
def movedAway : List (Event Nat) :=
  (crowd.flatMap fun key => .insert 0 ⟨key, 0⟩ :: List.replicate 6 (.next 0 .quiet)) ++
    .insert 1 ⟨2, 7⟩ :: List.replicate 11 (.next 1
      ⟨.still fun _ idx slot => if idx = 0 then crowd.getD slot 0 else 0, fun _ => 0⟩)

theorem get_never_misses_moved : ∃ u v : State Nat,
    At step (State.start (.new 2)) movedAway 65 u ∧
    At step (State.start (.new 2)) movedAway 68 v ∧
    u.cuckoo.table.find 4 0 = false ∧
    getBetween 0 1 u.cuckoo.table v.cuckoo.table 4 = .true := by
  have hfirst : (exec step (State.start (.new 2)) (movedAway.take 65)).map (fun s =>
      (s.cuckoo.table.find 4 0, s.cuckoo.content (1, 0))) = some (false, some ⟨4, 0⟩) := by
    decide +kernel
  have hsecond : ((exec step (State.start (.new 2)) (movedAway.take 68)).map fun _ => ()) =
      some () := by
    decide +kernel
  obtain ⟨u, hu, hread⟩ := Option.map_eq_some_iff.mp hfirst
  obtain ⟨v, hv, _⟩ := Option.map_eq_some_iff.mp hsecond
  obtain ⟨hleft, hin⟩ := Prod.mk.inj hread
  have hatu : At step (State.start (.new 2)) movedAway 65 u := ⟨by decide, hu⟩
  have hatv : At step (State.start (.new 2)) movedAway 68 v := ⟨by decide, hv⟩
  exact ⟨u, v, hatu, hatv, hleft, get_never_misses (WellFormed.new (by decide)).toWellPlaced
    (by decide) (by decide) (by decide) hatu hatv (by decide) ⟨⟨4, 0⟩, ⟨(1, 0), hin⟩, rfl⟩⟩

end ConcurrentComputing.Store.Workers
