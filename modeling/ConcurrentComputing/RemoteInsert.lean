import ConcurrentComputing.LockClients
import ConcurrentComputing.RemoteGet
import Mathlib.Data.List.Perm.Lattice
import Mathlib.Data.Finset.Card
import Mathlib.Data.Nat.ModEq

/-! # The client's inserts

`Remote::release`, `prepareMessage` and both overloads of `insert` as client
programs. The lock of a primary bucket is a 64-bit word on each replica, and an
insert is inside the section of a bucket from the end of a successful
`prepareMessage` to the end of the `release` that undoes it. -/

namespace ConcurrentComputing.Remote

open CuckooPath Store LockClients

/-- A lock word: the replica, and the byte offset into its region. -/
abbrev LockWord := Nat × Int

/-- What `qp->send` sends: the index into `connections`, and the bytes. -/
abbrev Message := Nat × List Byte

/-- A client program; the section of a primary bucket is named by the offset of
its lock. -/
abbrev Client (α : Type) := Prog LockWord Int Message α

/-- The `read_offset` of a bucket's lock, behind the `SIZE * ENTRY_WIDTH` nodes. -/
def lockOffset (key : Word) : Int := (size * entryWidth + (hash key .one).toInt) * sizeofNode

def releaseLoop (offset : Int) : List Nat → Client Unit
  | [] => .ret ()
  | targetId :: rest => .cas (targetId, offset) 1 0 fun _ => releaseLoop offset rest

def release (key : Word) (nodeOwnershipSet : List Nat) : Client Unit :=
  releaseLoop (lockOffset key) nodeOwnershipSet

/-- The loop of `prepareMessage` with `todo` replicas to go. -/
def prepareLoop (n : Nat) (offset : Int) (startingId : Nat) :
    Nat → List Nat → Client (List Nat)
  | 0, nodeOwnershipSet => .enter offset (.ret nodeOwnershipSet)
  | todo + 1, nodeOwnershipSet =>
    let targetId := (startingId + (n - (todo + 1))) % n
    .cas (targetId, offset) 0 1 fun previous =>
      if previous = 1 then (releaseLoop offset nodeOwnershipSet).bind fun _ => .ret []
      else prepareLoop n offset startingId todo (nodeOwnershipSet ++ [targetId])

/-- `prepareMessage(key)` over `n` replicas. -/
def prepareMessage (n : Nat) (key : Word) : Client (List Nat) :=
  .random fun r => prepareLoop n (lockOffset key) (r % n) n []

def sendTo (bytes : List Byte) : List Nat → Client Unit
  | [] => .ret ()
  | targetId :: rest => .send (targetId, bytes) (sendTo bytes rest)

/-- `insert(std::pair<int, int>)`. -/
def insertPair (n : Nat) (element : Node) : Client Result :=
  (prepareMessage n element.key).bind fun nodeOwnershipSet =>
    if nodeOwnershipSet.length = 0 then .ret .abortFailure
    else (sendTo element.bytes nodeOwnershipSet).bind fun _ =>
      (release element.key nodeOwnershipSet).bind fun _ =>
        .leave (lockOffset element.key) (.ret .true)

/-- Keys with their ownership sets, released one after the other. -/
def releaseAll : List (Word × List Nat) → Client Unit
  | [] => .ret ()
  | (key, nodeOwnershipSet) :: rest =>
    (release key nodeOwnershipSet).bind fun _ => .leave (lockOffset key) (releaseAll rest)

/-- The first loop of `insert(std::vector)`; on a failure the locks are unwound
from the last one back, and `none` is returned. -/
def acquireAll (n : Nat) : List Node → List (Word × List Nat) →
    Client (Option (List (Word × List Nat)))
  | [], done => .ret (some done)
  | element :: rest, done =>
    (prepareMessage n element.key).bind fun nodeOwnershipSet =>
      if nodeOwnershipSet.length = 0 then (releaseAll done.reverse).bind fun _ => .ret none
      else acquireAll n rest (done ++ [(element.key, nodeOwnershipSet)])

/-- `Buffer(context, insertions, 24)`: 24 bytes from the start of the array, and
what lies beyond it where the array is shorter. -/
def insertionBytes (elements : List Node) (beyond : Nat → Byte) : List Byte :=
  (elements.flatMap Node.bytes ++ (List.range 24).map beyond).take 24

/-- The send loop of `insert(std::vector)`: `targetId = i` for `i` from `i` up to
the number of elements. -/
def sendElements (message : Nat → List Byte) : List Nat → Client Unit
  | [] => .ret ()
  | i :: rest => .send (i, message i) (sendElements message rest)

/-- `insert(std::vector<std::pair<int, int>>)`; `beyond i` is the memory behind the
array at the time of send `i`. -/
def insertList (n : Nat) (elements : List Node) (beyond : Nat → Nat → Byte) : Client Result :=
  (acquireAll n elements []).bind fun
    | none => .ret .abortFailure
    | some done =>
      (sendElements (fun i => insertionBytes elements (beyond i))
        (List.range elements.length)).bind fun _ =>
          (releaseAll done).bind fun _ => .ret .true

inductive InsertCall where
  | pair (element : Node)
  | list (elements : List Node) (beyond : Nat → Nat → Byte)

def InsertCall.program (n : Nat) : InsertCall → Client Result
  | .pair element => insertPair n element
  | .list elements beyond => insertList n elements beyond

/-! ## What the programs keep to -/

/-- The words of a bucket's section: its lock on every replica. -/
def lockWords (n : Nat) (offset : Int) : Finset LockWord := Finset.range n ×ˢ {offset}

/-- Holding the sections `S` and no other word. -/
def holding (n : Nat) (S : Finset Int) (sent : List Message) : History LockWord Int Message :=
  ⟨Finset.range n ×ˢ S, S, sent⟩

variable {n : Nat} {offset : Int} {S : Finset Int} {sent : List Message}
  {I : History LockWord Int Message → Prop}

theorem perm_range {l : List Nat} (hnd : l.Nodup) (hlt : ∀ x ∈ l, x < n) (hlen : l.length = n) :
    l.Perm (List.range n) := by
  refine List.perm_of_nodup_nodup_toFinset_eq hnd List.nodup_range ?_
  refine Finset.eq_of_subset_of_card_le (fun x hx => ?_) ?_
  · exact List.mem_toFinset.mpr (List.mem_range.mpr (hlt x (List.mem_toFinset.mp hx)))
  · rw [List.toFinset_card_of_nodup hnd, List.toFinset_card_of_nodup List.nodup_range,
      List.length_range, hlen]

/-- Giving up the words of one offset. -/
theorem safe_releaseLoop : ∀ (l : List Nat) (O : Finset LockWord), l.Nodup →
    (∀ t ∈ l, t < n ∧ (t, offset) ∈ O) →
    (∀ b ∈ S, b ≠ offset → ∃ w ∈ lockWords n b, w ∈ O) → (∀ O, I ⟨O, S, sent⟩) →
    Safe (lockWords n) I (fun _ h => h = ⟨O \ (l.toFinset ×ˢ {offset}), S, sent⟩)
      (releaseLoop offset l) ⟨O, S, sent⟩
  | [], O, _, _, _, _ => by
    show _ = _
    simp
  | t :: l, O, hnd, hl, hst, hI => by
    obtain ⟨hn, hnd'⟩ := List.nodup_cons.mp hnd
    obtain ⟨ht, hmem⟩ := hl t (by simp)
    refine ⟨fun b hb => ?_, hI O, Or.inr ⟨rfl, rfl, hmem, ?_⟩⟩
    · by_cases hbo : b = offset
      · exact ⟨(t, offset), by simp [lockWords, ht, hbo], hmem⟩
      · exact hst b hb hbo
    · have hcas : (⟨O, S, sent⟩ : History LockWord Int Message).cas (t, offset) 1 0 1 =
          ⟨O.erase (t, offset), S, sent⟩ := by simp [History.cas]
      rw [hcas]
      refine (safe_releaseLoop l _ hnd' (fun u hu => ?_) (fun b hb hbo => ?_) hI).mono ?_
      · obtain ⟨hult, humem⟩ := hl u (by simp [hu])
        have hne : u ≠ t := fun he => hn (he ▸ hu)
        exact ⟨hult, Finset.mem_erase.mpr ⟨by simp [hne], humem⟩⟩
      · obtain ⟨⟨u, c⟩, hw, hwO⟩ := hst b hb hbo
        have hc : c = b := by simpa [lockWords] using (Finset.mem_product.mp hw).2
        exact ⟨(u, c), hw, Finset.mem_erase.mpr ⟨by simp [hc, hbo], hwO⟩⟩
      · intro _ h hh
        rw [hh]
        congr 1
        ext ⟨u, c⟩
        simp only [Finset.mem_sdiff, Finset.mem_erase, Finset.mem_product, List.mem_toFinset,
          Finset.mem_singleton, List.mem_cons, ne_eq, Prod.mk.injEq]
        tauto

/-- Releasing a whole section, whichever way its ownership set is ordered. -/
theorem safe_release {key : Word} {l : List Nat} (hS : lockOffset key ∈ S)
    (hl : l.Perm (List.range n)) (hn : 0 < n) (hI : ∀ O, I ⟨O, S, sent⟩) :
    Safe (lockWords n) I (fun _ h => h.leave (lockOffset key) =
        holding n (S.erase (lockOffset key)) sent)
      (release key l) (holding n S sent) := by
  have hfin : l.toFinset = Finset.range n := by
    ext t
    simp [hl.mem_iff]
  refine (safe_releaseLoop l _ (hl.nodup_iff.mpr List.nodup_range) (fun t ht => ?_)
    (fun b hb _ => ?_) hI).mono ?_
  · have hlt := List.mem_range.mp (hl.mem_iff.mp ht)
    exact ⟨hlt, by simp [hlt, hS]⟩
  · exact ⟨(0, b), by simp [lockWords, hn], by simp [hn, hb]⟩
  · intro _ h hh
    rw [hh, hfin]
    simp only [History.leave, holding, History.mk.injEq, and_true]
    ext ⟨u, c⟩
    simp only [Finset.mem_sdiff, Finset.mem_product, Finset.mem_singleton, Finset.mem_erase]
    tauto

/-- The result of `prepareMessage`: nothing, with nothing held that was not held
before, or the section of a bucket that was not held. -/
def Prepared (n : Nat) (offset : Int) (S : Finset Int) (sent : List Message)
    (set : List Nat) (h : History LockWord Int Message) : Prop :=
  (set = [] ∧ h = holding n S sent) ∨
    (offset ∉ S ∧ set.Perm (List.range n) ∧ h = holding n (insert offset S) sent)

theorem rotation_injOn (start : Nat) : ∀ i < n, ∀ j < n,
    (start + i) % n = (start + j) % n → i = j := by
  intro i hi j hj he
  have h := (Nat.ModEq.add_left_cancel' start he)
  rwa [Nat.ModEq, Nat.mod_eq_of_lt hi, Nat.mod_eq_of_lt hj] at h

theorem safe_prepareLoop (hn : 0 < n) (hI : ∀ O, I ⟨O, S, sent⟩) (start : Nat) :
    ∀ todo ≤ n, ∀ set, set = (List.range (n - todo)).map (fun i => (start + i) % n) →
      (set ≠ [] → offset ∉ S) →
      Safe (lockWords n) I (Prepared n offset S sent) (prepareLoop n offset start todo set)
        ⟨Finset.range n ×ˢ S ∪ set.toFinset ×ˢ {offset}, S, sent⟩ := by
  have hbounds : ∀ k ≤ n, ((List.range k).map fun i => (start + i) % n).Nodup ∧
      ∀ t ∈ (List.range k).map (fun i => (start + i) % n), t < n := by
    intro k hk
    refine ⟨List.Nodup.map_on ?_ List.nodup_range, ?_⟩
    · intro i hi j hj he
      have hi' := List.mem_range.mp hi
      have hj' := List.mem_range.mp hj
      exact rotation_injOn start i (by omega) j (by omega) he
    · intro t ht
      obtain ⟨i, _, rfl⟩ := List.mem_map.mp ht
      exact Nat.mod_lt _ hn
  intro todo
  induction todo with
  | zero =>
    intro _ set hset hfresh
    obtain ⟨hnd, hlt⟩ := hbounds n (le_refl n)
    rw [Nat.sub_zero] at hset
    have hperm : set.Perm (List.range n) :=
      perm_range (hset ▸ hnd) (hset ▸ hlt) (by rw [hset]; simp)
    have hfin : set.toFinset = Finset.range n := by
      ext t
      simp [hperm.mem_iff]
    have hne : set ≠ [] := by
      intro he
      have := hperm.length_eq
      rw [he, List.length_range, List.length_nil] at this
      omega
    refine ⟨?_, Or.inr ⟨hfresh hne, hperm, ?_⟩⟩
    · rw [hfin]
      exact Finset.subset_union_right
    · rw [hfin, ← Finset.product_union]
      simp [History.enter, holding, Finset.union_comm S]
  | succ todo ih =>
    intro htodo set hset hfresh
    have hsteady : ∀ O : Finset LockWord,
        (⟨Finset.range n ×ˢ S ∪ O, S, sent⟩ : History LockWord Int Message).Steady (lockWords n) := by
      intro O b hb
      exact ⟨(0, b), by simp [lockWords, hn],
        Finset.mem_union_left _ (by simp [hn, show b ∈ S from hb])⟩
    obtain ⟨hnd, hlt⟩ := hbounds (n - (todo + 1)) (by omega)
    refine ⟨hsteady _, hI _, Or.inl ⟨rfl, rfl, ?_, fun hnot => ?_⟩⟩
    · -- the word was taken: what has been won is given up
      dsimp only
      rw [if_pos rfl]
      refine (safe_releaseLoop set _ (hset ▸ hnd) (fun t ht => ?_) (fun b hb _ => hsteady _ b hb)
        hI).bind ?_
      · exact ⟨hlt t (hset ▸ ht), Finset.mem_union_right _ (by simp [ht])⟩
      · intro _ h hh
        refine Or.inl ⟨rfl, ?_⟩
        rw [hh, holding]
        congr 1
        ext ⟨u, c⟩
        simp only [Finset.mem_sdiff, Finset.mem_union, Finset.mem_product, Finset.mem_range,
          List.mem_toFinset, Finset.mem_singleton]
        refine ⟨fun ⟨hor, hnot⟩ => hor.resolve_right hnot, fun hin => ⟨Or.inl hin, fun hu => ?_⟩⟩
        exact hfresh (List.ne_nil_of_mem hu.1) (hu.2 ▸ hin.2)
    · -- the word is won
      dsimp only
      rw [if_neg (by decide)]
      have hoff : offset ∉ S := by
        intro hS
        refine hnot (Finset.mem_union_left _ ?_)
        simp [Nat.mod_lt _ hn, hS]
      have hcas : (⟨Finset.range n ×ˢ S ∪ set.toFinset ×ˢ {offset}, S, sent⟩ :
          History LockWord Int Message).cas ((start + (n - (todo + 1))) % n, offset) 0 1 0 =
          ⟨Finset.range n ×ˢ S ∪
            (set ++ [(start + (n - (todo + 1))) % n]).toFinset ×ˢ {offset}, S, sent⟩ := by
        simp only [History.cas, and_self, if_true, History.mk.injEq, and_true]
        ext ⟨u, c⟩
        simp only [Finset.mem_insert, Finset.mem_union, Finset.mem_product, List.mem_toFinset,
          Finset.mem_singleton, List.mem_append, List.mem_singleton, Prod.mk.injEq]
        rw [or_and_right, or_comm, or_assoc]
      rw [hcas]
      refine ih (by omega) _ ?_ fun _ => hoff
      rw [show n - todo = n - (todo + 1) + 1 by omega, List.range_succ, List.map_append, ← hset]
      rfl

theorem safe_prepareMessage (hn : 0 < n) (hI : ∀ O, I ⟨O, S, sent⟩) (key : Word) :
    Safe (lockWords n) I (Prepared n (lockOffset key) S sent) (prepareMessage n key)
      (holding n S sent) := by
  refine ⟨fun b hb => ?_, hI _, fun r => ?_⟩
  · exact ⟨(0, b), by simp [lockWords, hn], by simp [holding, hn, show b ∈ S from hb]⟩
  · have hloop : Safe (lockWords n) I (Prepared n (lockOffset key) S sent)
        (prepareLoop n (lockOffset key) (r % n) n []) ⟨_, S, sent⟩ :=
      safe_prepareLoop hn hI (r % n) n (le_refl n) [] (by simp) (fun h => absurd rfl h)
    simpa [holding] using hloop

theorem steady_holding (hn : 0 < n) : (holding n S sent).Steady (lockWords n) := fun b hb =>
  ⟨(0, b), by simp [lockWords, hn], by simp [holding, hn, show b ∈ S from hb]⟩

/-! ## What holds during and after a call -/

/-- Between the steps of a call: a pair is sent from inside its section, to each
replica at most once. -/
def InsertCall.During (n : Nat) : InsertCall → History LockWord Int Message → Prop
  | .pair element, h => (h.inside = ∅ ∧ h.sent = []) ∨
      (h.inside = {lockOffset element.key} ∧ ∃ ts : List Nat, ts.Nodup ∧ (∀ t ∈ ts, t < n) ∧
        h.sent = ts.map fun t => (t, element.bytes))
  | .list _ _, _ => True

/-- What a call that returned `TRUE` has sent: a pair to every replica once, a list
once for each of its elements, numbered from 0. -/
def InsertCall.Sent (n : Nat) : InsertCall → List Message → Prop
  | .pair element, sent => ∃ ts : List Nat, ts.Perm (List.range n) ∧
      sent = ts.map fun t => (t, element.bytes)
  | .list elements beyond, sent => sent =
      (List.range elements.length).map fun i => (i, insertionBytes elements (beyond i))

/-- What a call leaves when it returns. -/
structure InsertCall.Done (n : Nat) (call : InsertCall) (answer : Result)
    (h : History LockWord Int Message) : Prop where
  owned : h.owned = ∅
  inside : h.inside = ∅
  answer : (answer = .abortFailure ∧ h.sent = []) ∨ (answer = .true ∧ call.Sent n h.sent)

theorem holding_empty : holding n ∅ [] = History.empty := by
  simp [holding, History.empty]

theorem done_abort (call : InsertCall) : call.Done n .abortFailure (holding n ∅ []) :=
  ⟨by simp [holding], rfl, Or.inl ⟨rfl, rfl⟩⟩

theorem done_true {call : InsertCall} (h : call.Sent n sent) :
    call.Done n .true (holding n ∅ sent) :=
  ⟨by simp [holding], rfl, Or.inr ⟨rfl, h⟩⟩

/-- The sends of a pair, after those to `ts`. -/
theorem safe_sendTo (hn : 0 < n) (element : Node) : ∀ (rest ts : List Nat),
    (ts ++ rest).Perm (List.range n) →
    Safe (lockWords n) ((InsertCall.pair element).During n)
      (fun _ h => h = holding n {lockOffset element.key}
        ((ts ++ rest).map fun t => (t, element.bytes)))
      (sendTo element.bytes rest)
      (holding n {lockOffset element.key} (ts.map fun t => (t, element.bytes)))
  | [], ts, _ => by
    show _ = _
    rw [List.append_nil]
  | t :: rest, ts, hperm => by
    have hnd : (ts ++ t :: rest).Nodup := hperm.nodup_iff.mpr List.nodup_range
    refine ⟨steady_holding hn, Or.inr ⟨rfl, ts, hnd.of_append_left, fun u hu => ?_, rfl⟩,
      Finset.singleton_nonempty _, ?_⟩
    · exact List.mem_range.mp (hperm.mem_iff.mp (by simp [hu]))
    · rw [List.append_cons] at hperm ⊢
      have hsend : (holding n {lockOffset element.key} (ts.map fun t => (t, element.bytes))).send
          (t, element.bytes) =
            holding n {lockOffset element.key} ((ts ++ [t]).map fun t => (t, element.bytes)) := by
        simp [holding, History.send]
      rw [hsend]
      exact safe_sendTo hn element rest (ts ++ [t]) hperm

theorem safe_insertPair (hn : 0 < n) (element : Node) :
    Safe (lockWords n) ((InsertCall.pair element).During n) ((InsertCall.pair element).Done n)
      (insertPair n element) .empty := by
  have hempty : ∀ O, (InsertCall.pair element).During n ⟨O, ∅, []⟩ := fun _ => Or.inl ⟨rfl, rfl⟩
  rw [← holding_empty (n := n)]
  refine (safe_prepareMessage hn hempty element.key).bind fun set h hprep => ?_
  rcases hprep with ⟨rfl, rfl⟩ | ⟨_, hperm, rfl⟩
  · exact done_abort _
  · have hlen : set.length ≠ 0 := by
      rw [hperm.length_eq, List.length_range]
      omega
    rw [if_neg hlen]
    refine (safe_sendTo hn element set [] hperm).bind fun _ h hsent => ?_
    subst hsent
    have hin : ∀ O, (InsertCall.pair element).During n
        ⟨O, {lockOffset element.key}, set.map fun t => (t, element.bytes)⟩ := by
      intro O
      refine Or.inr ⟨rfl, set, hperm.nodup_iff.mpr List.nodup_range, fun t ht => ?_, rfl⟩
      exact List.mem_range.mp (hperm.mem_iff.mp ht)
    refine (safe_release (by simp) hperm hn hin).bind fun _ h hrel => ?_
    show InsertCall.Done n _ _ (h.leave _)
    rw [hrel, Finset.erase_singleton]
    exact done_true ⟨set, hperm, rfl⟩

/-! ## The list overload -/

/-- Ownership sets of distinct sections, each complete. -/
structure Sections (n : Nat) (done : List (Word × List Nat)) : Prop where
  nodup : (done.map fun d => lockOffset d.1).Nodup
  perm : ∀ d ∈ done, d.2.Perm (List.range n)

/-- Releasing sections in whatever order leaves the others. -/
theorem safe_releaseAll (hn : 0 < n) (hI : ∀ O S, I ⟨O, S, sent⟩)
    (done : List (Word × List Nat)) (S : Finset Int) (hdone : Sections n done)
    (hS : ∀ d ∈ done, lockOffset d.1 ∈ S) :
    Safe (lockWords n) I (fun _ h => h = holding n
      (S \ (done.map fun d => lockOffset d.1).toFinset) sent)
      (releaseAll done) (holding n S sent) := by
  induction done generalizing S with
  | nil =>
    show _ = _
    simp
  | cons d done ih =>
    obtain ⟨key, set⟩ := d
    have hnodup := hdone.nodup
    rw [List.map_cons, List.nodup_cons] at hnodup
    obtain ⟨hhead, hnd⟩ := hnodup
    have hperm := hdone.perm (key, set) (by simp)
    have hkey : lockOffset key ∈ S := hS (key, set) (by simp)
    refine (safe_release hkey hperm hn fun O => hI O S).bind fun _ h hrel => ?_
    show Safe _ _ _ (releaseAll done) (h.leave _)
    rw [hrel]
    have hrest := ih (S.erase (lockOffset key)) ⟨hnd, fun d hd => hdone.perm d (by simp [hd])⟩
      fun d hd => Finset.mem_erase.mpr
        ⟨fun he => hhead (he ▸ List.mem_map_of_mem hd), hS d (by simp [hd])⟩
    refine hrest.mono fun _ h' hh' => ?_
    rw [hh']
    congr 1
    ext x
    simp only [Finset.mem_sdiff, Finset.mem_erase, List.map_cons, List.toFinset_cons,
      Finset.mem_insert, not_or]
    tauto

theorem sections_toFinset_sdiff (done : List (Word × List Nat)) (S : Finset Int)
    (hS : S = (done.map fun d => lockOffset d.1).toFinset) :
    S \ (done.map fun d => lockOffset d.1).toFinset = ∅ := by
  rw [hS, Finset.sdiff_self]

/-- The first loop: every section, or none. -/
theorem safe_acquireAll (hn : 0 < n) (hI : ∀ O S, I ⟨O, S, []⟩) :
    ∀ (rest : List Node) (done : List (Word × List Nat)), Sections n done →
      Safe (lockWords n) I
        (fun o h => (o = none ∧ h = holding n ∅ []) ∨ ∃ done', o = some done' ∧
          done'.length = done.length + rest.length ∧ Sections n done' ∧
            h = holding n (done'.map fun d => lockOffset d.1).toFinset [])
        (acquireAll n rest done) (holding n (done.map fun d => lockOffset d.1).toFinset [])
  | [], done, hdone => Or.inr ⟨done, rfl, rfl, hdone, rfl⟩
  | element :: rest, done, hdone => by
    refine (safe_prepareMessage hn (fun O => hI O _) element.key).bind fun set h hprep => ?_
    rcases hprep with ⟨rfl, rfl⟩ | ⟨hfresh, hperm, rfl⟩
    · have hrev : Sections n done.reverse :=
        ⟨by rw [List.map_reverse]; exact List.nodup_reverse.mpr hdone.nodup,
          fun d hd => hdone.perm d (List.mem_reverse.mp hd)⟩
      refine (safe_releaseAll hn hI done.reverse _ hrev fun d hd => ?_).bind fun _ h hh => ?_
      · exact List.mem_toFinset.mpr (List.mem_map_of_mem (List.mem_reverse.mp hd))
      · refine Or.inl ⟨rfl, ?_⟩
        rw [hh, sections_toFinset_sdiff]
        rw [List.map_reverse, List.toFinset_reverse]
    · have hlen : set.length ≠ 0 := by
        rw [hperm.length_eq, List.length_range]
        omega
      rw [if_neg hlen]
      have hdone' : Sections n (done ++ [(element.key, set)]) := by
        refine ⟨?_, fun d hd => ?_⟩
        · rw [List.map_append, List.nodup_append]
          refine ⟨hdone.nodup, by simp, fun x hx y hy he => hfresh ?_⟩
          rw [List.map_singleton, List.mem_singleton] at hy
          rw [List.mem_toFinset, ← hy, ← he]
          exact hx
        · rcases List.mem_append.mp hd with hd | hd
          · exact hdone.perm d hd
          · rw [List.mem_singleton.mp hd]
            exact hperm
      have hset : insert (lockOffset element.key) (done.map fun d => lockOffset d.1).toFinset =
          ((done ++ [(element.key, set)]).map fun d => lockOffset d.1).toFinset := by
        rw [List.map_append, List.toFinset_append, Finset.union_comm]
        simp
      rw [hset]
      refine (safe_acquireAll hn hI rest _ hdone').mono fun o h hh => hh.imp id ?_
      intro ⟨done', ho, hlength, hrest⟩
      refine ⟨done', ho, ?_, hrest⟩
      rw [hlength, List.length_append, List.length_singleton, List.length_cons]
      omega

theorem safe_sendElements (hn : 0 < n) (hI : ∀ h, I h) (message : Nat → List Byte) :
    ∀ (rest : List Nat) (sent : List Message), (rest ≠ [] → S.Nonempty) →
      Safe (lockWords n) I
        (fun _ h => h = holding n S (sent ++ rest.map fun i => (i, message i)))
        (sendElements message rest) (holding n S sent)
  | [], sent, _ => by
    show _ = _
    simp
  | i :: rest, sent, hS => by
    have hin : S.Nonempty := hS (List.cons_ne_nil i rest)
    refine ⟨steady_holding hn, hI _, hin, ?_⟩
    have h := safe_sendElements hn hI message rest (sent ++ [(i, message i)]) fun _ => hin
    rwa [List.append_assoc] at h

theorem safe_insertList (hn : 0 < n) (elements : List Node) (beyond : Nat → Nat → Byte) :
    Safe (lockWords n) ((InsertCall.list elements beyond).During n)
      ((InsertCall.list elements beyond).Done n) (insertList n elements beyond) .empty := by
  have hI : ∀ h, (InsertCall.list elements beyond).During n h := fun _ => trivial
  rw [← holding_empty (n := n)]
  refine (safe_acquireAll hn (fun _ _ => hI _) elements [] ⟨List.nodup_nil, nofun⟩).bind
    fun o h hacq => ?_
  rcases hacq with ⟨rfl, rfl⟩ | ⟨done, rfl, hlength, hdone, rfl⟩
  · exact done_abort _
  · have hin : List.range elements.length ≠ [] →
        (done.map fun d => lockOffset d.1).toFinset.Nonempty := by
      intro hne
      have hdone : done ≠ [] := by
        rw [List.length_nil, Nat.zero_add] at hlength
        rw [ne_eq, ← List.length_eq_zero_iff, hlength]
        simpa using hne
      simpa [List.toFinset_nonempty_iff] using hdone
    refine (safe_sendElements hn hI _ (List.range elements.length) [] hin).bind fun _ h hsent => ?_
    subst hsent
    refine (safe_releaseAll hn (fun _ _ => hI _) done _ hdone fun d hd => ?_).bind
      fun _ h hrel => ?_
    · exact List.mem_toFinset.mpr (List.mem_map_of_mem hd)
    · rw [sections_toFinset_sdiff _ _ rfl] at hrel
      subst hrel
      exact done_true rfl

/-- **Both overloads are safe programs.** -/
theorem program_safe (hn : 0 < n) : ∀ call : InsertCall,
    Safe (lockWords n) (call.During n) (call.Done n) (call.program n) .empty
  | .pair element => safe_insertPair hn element
  | .list elements beyond => safe_insertList hn elements beyond

end ConcurrentComputing.Remote
