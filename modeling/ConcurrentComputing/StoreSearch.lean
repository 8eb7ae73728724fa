import ConcurrentComputing.CuckooSearch
import ConcurrentComputing.StoreMemory

/-! # A lone insert into the store and its path

The displacement loop validates with `hash(key, 2)`, but a key in a bucket reached
with tag 2 goes on to `hash(key, 1)`. With nobody else running this is the only
validation that can fail, and it fails in every round. -/

namespace ConcurrentComputing.Store

open CuckooPath Placement Runs

/-- (index, slot): the tag of the bucket does not matter to the memory. -/
abbrev Hop.cell (hop : Hop) : Cell := (hop.index, hop.slot)

namespace Cuckoo

variable {c c' : Cuckoo} {key : Word} {idx1 idx2 : Nat}

def keyAt (c : Cuckoo) (hop : Hop) : Word := (c.table.getElement hop.index hop.slot).key

/-! ## Displacements along a path -/

theorem keyAt_setElement {hop other : Hop} {element : Node} (hs : hop.slot < entryWidth)
    (ho : other.slot < entryWidth) :
    keyAt ⟨c.buckets, c.table.setElement hop.index hop.slot element⟩ other =
      if Hop.cell other = Hop.cell hop then element.key else c.keyAt other := by
  unfold keyAt
  rw [Table.getElement_setElement _ _ hs ho]
  simp only [Hop.cell, Prod.mk.injEq]
  split <;> rfl

/-- A displacement to an empty slot of a key: only its hash decides. -/
theorem displace_iff {dst src : Hop} (hdst : c.keyAt dst = 0) (hsrc : c.keyAt src ≠ 0) :
    (∃ d, c.displace dst src = some d) ↔ hash c.buckets (c.keyAt src) .two = dst.index := by
  have hdst := Table.isOccupied_eq_false.mpr hdst
  have hsrc := Table.isOccupied_iff.mpr hsrc
  unfold keyAt
  by_cases h : hash c.buckets (c.table.getElement src.index src.slot).key .two = dst.index <;>
    simp [displace, hdst, hsrc, h]

/-- What it leaves behind. -/
theorem displace_keyAt {dst src : Hop} (hd : dst.slot < entryWidth) (hs : src.slot < entryWidth)
    (h : c.displace dst src = some c') : c'.buckets = c.buckets ∧ c.keyAt dst = 0 ∧
      c.keyAt src ≠ 0 ∧ c'.keyAt src = 0 ∧ ∀ hop : Hop, hop.slot < entryWidth →
        Hop.cell hop ≠ Hop.cell dst → Hop.cell hop ≠ Hop.cell src →
        c'.keyAt hop = c.keyAt hop := by
  simp only [displace, Option.ite_none_left_eq_some, Bool.or_eq_true, not_or,
    Bool.not_eq_true, Bool.not_eq_eq_eq_not, Bool.not_true, bne_eq_false_iff_eq,
    Table.isOccupied_iff, Table.isOccupied_eq_false, not_not, Option.some.injEq] at h
  obtain ⟨⟨⟨hdst, hsrc⟩, _⟩, rfl⟩ := h
  refine ⟨rfl, hdst, hsrc, ?_, fun hop hlt hne hne' => ?_⟩
  · rw [Table.setKey]
    refine (keyAt_setElement (c := ⟨c.buckets, _⟩) hs hs).trans ?_
    rw [if_pos rfl]
  · rw [Table.setKey]
    refine (keyAt_setElement (c := ⟨c.buckets, _⟩) hs hlt).trans ?_
    rw [if_neg hne']
    exact (keyAt_setElement hd hlt).trans (if_neg hne)

/-- A displacement that goes through has two different slots. -/
theorem displaceAll_cells : ∀ {path : List Hop} {c : Cuckoo}, (∀ hop ∈ path, hop.slot < entryWidth) →
    (c.displaceAll path).1 ≠ .retry →
    path.IsChain fun dst src => Hop.cell dst ≠ Hop.cell src
  | [], _, _, _ => List.IsChain.nil
  | [_], _, _, _ => List.IsChain.singleton _
  | dst :: src :: path, c, hs, h => by
    simp only [displaceAll] at h
    cases hd : c.displace dst src with
    | none => rw [hd] at h; exact absurd rfl h
    | some d =>
      rw [hd] at h
      obtain ⟨_, hdst, hsrc, _⟩ := displace_keyAt (hs dst (by simp)) (hs src (by simp)) hd
      refine List.isChain_cons_cons.mpr ⟨fun he => hsrc ?_,
        displaceAll_cells (fun x hx => hs x (List.mem_cons_of_mem _ hx)) h⟩
      obtain ⟨hi, hslot⟩ := Prod.mk.inj he
      unfold keyAt at hdst ⊢
      rw [← hi, ← hslot]
      exact hdst

/-- Over different slots, the first of them empty and the others not, the loop goes
through exactly when each key's second hash is the bucket it is sent to. -/
theorem displaceAll_iff : ∀ {path : List Hop} {c : Cuckoo}, path ≠ [] →
    (∀ hop ∈ path, hop.slot < entryWidth) →
    path.Pairwise (fun h h' => Hop.cell h ≠ Hop.cell h') →
    (∀ hop rest, path = hop :: rest → c.keyAt hop = 0 ∧ ∀ src ∈ rest, c.keyAt src ≠ 0) →
    ((c.displaceAll path).1 ≠ .retry ↔
      path.IsChain fun dst src => hash c.buckets (c.keyAt src) .two = dst.index)
  | [], _, hne, _, _, _ => absurd rfl hne
  | [hop], _, _, _, _, _ => by simp [displaceAll]
  | dst :: src :: path, c, _, hs, hp, hk => by
    obtain ⟨hdst, hocc⟩ := hk dst (src :: path) rfl
    have hiff := displace_iff hdst (hocc src (by simp))
    rw [List.isChain_cons_cons, ← hiff]
    simp only [displaceAll]
    cases hd : c.displace dst src with
    | none => simp
    | some d =>
      have hslots : ∀ hop ∈ src :: path, hop.slot < entryWidth :=
        fun x hx => hs x (List.mem_cons_of_mem _ hx)
      obtain ⟨hb, _, _, hzero, hkeep⟩ := displace_keyAt (hs dst (by simp)) (hs src (by simp)) hd
      obtain ⟨hp₁, hp₂⟩ := List.pairwise_cons.mp hp
      have hsame : ∀ hop ∈ path, d.keyAt hop = c.keyAt hop := by
        intro hop hm
        exact hkeep hop (hslots hop (List.mem_cons_of_mem _ hm))
          (hp₁ hop (List.mem_cons_of_mem _ hm)).symm
          ((List.pairwise_cons.mp hp₂).1 hop hm).symm
      have ih := displaceAll_iff (c := d) (List.cons_ne_nil src path) hslots hp₂ (by
        intro hop rest he
        cases he
        refine ⟨hzero, fun x hx => ?_⟩
        rw [hsame x hx]
        exact hocc x (List.mem_cons_of_mem _ hx))
      dsimp only
      rw [ih, hb]
      simp only [Option.some.injEq, exists_eq', true_and]
      constructor <;> intro hchain <;> refine hchain.imp_of_mem_tail_imp fun x y _ hy h => ?_
      · rwa [← hsame y hy]
      · rwa [hsame y hy]

/-! ## The slots along a path -/

/-- Consecutive entries of a path: the tags differ and the key of the later one leads
to the earlier. -/
theorem route_step {path : List Hop} (hr : Route c.scheme c.view path) {i : Nat}
    (hi : i + 1 < path.length) : path[i].table = path[i + 1].table.other ∧
      path[i].index = hash c.buckets (c.keyAt path[i + 1]) path[i + 1].table.other := by
  have h := List.isChain_iff_getElem.mp hr.chain i hi
  exact ⟨congrArg Prod.fst h, congrArg Prod.snd h⟩

/-- Only neighbours on a path can be one slot of memory: then the key stays in its
bucket and goes on from there to the bucket its other hash names. -/
theorem route_neighbours (hc : c.WellPlaced) {path : List Hop}
    (hb : ∀ hop ∈ path, hop.index < c.buckets ∧ hop.slot < entryWidth)
    (hr : Route c.scheme c.view path) {i j : Nat} (hj : j < path.length) (hlt : i < j)
    (he : Hop.cell path[i] = Hop.cell path[j]) :
    j = i + 1 ∧ hash c.buckets (c.keyAt path[j]) .one ≠ hash c.buckets (c.keyAt path[j]) .two ∧
      (path[i].table = .two ∨ path[j].table = .two) ∧ c.keyAt path[i] = c.keyAt path[j] := by
  obtain ⟨hindex, hslot⟩ := Prod.mk.inj he
  have hkey : c.keyAt path[i] = c.keyAt path[j] := by
    unfold keyAt
    rw [hindex, hslot]
  have hne : ∀ {a b : Nat} (ha : a < path.length) (hb : b < path.length), a < b →
      path[a].bucket ≠ path[b].bucket :=
    fun ha hb hab => List.pairwise_iff_getElem.mp hr.distinct _ _ ha hb hab
  -- the deepest slot is empty and the others are not
  have hocc : c.keyAt path[j] ≠ 0 ∧ 0 < i := by
    obtain ⟨hop, rest, hpath⟩ := List.exists_cons_of_ne_nil (l := path)
      (by rintro rfl; simp at hj)
    have hj' : path[j] ∈ rest := by
      subst hpath
      obtain ⟨j, rfl⟩ := Nat.exists_eq_succ_of_ne_zero (show j ≠ 0 by omega)
      exact List.getElem_mem _
    have hocc := hr.occupied hop rest hpath _ hj'
    refine ⟨hocc, Nat.pos_of_ne_zero fun h0 => ?_⟩
    subst h0
    have hfree := hr.free hop rest hpath
    have hzero : path[0] = hop := by subst hpath; rfl
    rw [← hzero] at hfree
    exact hocc (hkey.symm.trans hfree)
  obtain ⟨hocc, hi⟩ := hocc
  -- so the key sits in one of its two buckets
  have hhome : path[j].index = hash c.buckets (c.keyAt path[j]) .one ∨
      path[j].index = hash c.buckets (c.keyAt path[j]) .two := by
    obtain ⟨hlt, hs⟩ := hb path[j] (List.getElem_mem _)
    exact (hc.placed _ _ (content_eq_some.mpr ⟨hlt, hs, rfl, hocc⟩)).1
  have htag : path[i].table = path[j].table.other := by
    have hdiff : path[i].table ≠ path[j].table := fun ht =>
      hne (by omega) hj hlt (Prod.ext ht hindex)
    revert hdiff
    cases path[i].table <;> cases path[j].table <;> simp [Side.other]
  obtain ⟨ht₁, hi₁⟩ := route_step hr (i := j - 1) (by omega)
  obtain ⟨ht₀, hi₀⟩ := route_step hr (i := i - 1) (by omega)
  simp only [show j - 1 + 1 = j by omega] at ht₁ hi₁
  simp only [show i - 1 + 1 = i by omega] at ht₀ hi₀
  rw [hkey, htag, Side.other_other] at hi₀
  -- the bucket before `path[i]` is not that of `path[j]`, so the key's hash of that tag differs
  have haway : hash c.buckets (c.keyAt path[j]) path[j].table ≠ path[j].index := by
    intro h
    refine hne (a := i - 1) (b := j) (by omega) hj (by omega) (Prod.ext ?_ (hi₀.trans h))
    exact (ht₀.trans (congrArg Side.other htag)).trans (Side.other_other _)
  have hstay : path[j].index = hash c.buckets (c.keyAt path[j]) path[j].table.other := by
    revert haway hhome
    cases path[j].table <;> simp only [Side.other] <;> intro hhome haway
    · exact hhome.resolve_left fun h => haway h.symm
    · exact hhome.resolve_right fun h => haway h.symm
  refine ⟨?_, ?_, ?_, hkey⟩
  · by_contra hfar
    exact hne (a := i) (b := j - 1) (by omega) (by omega) (by omega)
      (Prod.ext (htag.trans ht₁.symm) (hindex.trans (hstay.trans hi₁.symm)))
  · rw [hstay] at haway
    revert haway
    cases path[j].table <;> simp only [Side.other] <;> intro haway
    · exact haway
    · exact haway.symm
  · revert htag
    cases path[j].table <;> simp [Side.other]

/-- No key leaves a bucket reached with tag 2 unless its two hashes agree. -/
def Straight (c : Cuckoo) (sources : List Hop) : Prop :=
  ∀ src ∈ sources, src.table = .two →
    hash c.buckets (c.keyAt src) .one = hash c.buckets (c.keyAt src) .two

theorem isChain_of_tail {α : Type} {P : α → Prop} : ∀ {a : α} {l : List α},
    (a :: l).IsChain (fun _ b => P b) ↔ ∀ b ∈ l, P b
  | _, [] => by simp
  | _, b :: l => by
    rw [List.isChain_cons_cons, isChain_of_tail, List.forall_mem_cons]

/-- **When the displacement loop goes through** along a path of the table itself. -/
theorem displaceAll_route (hc : c.WellPlaced) {hop : Hop} {rest : List Hop}
    (hb : ∀ x ∈ hop :: rest, x.index < c.buckets ∧ x.slot < entryWidth)
    (hr : Route c.scheme c.view (hop :: rest)) :
    (c.displaceAll (hop :: rest)).1 ≠ .retry ↔ c.Straight rest := by
  have hslots : ∀ x ∈ hop :: rest, x.slot < entryWidth := fun x hx => (hb x hx).2
  have hkeys : ∀ h r, hop :: rest = h :: r → c.keyAt h = 0 ∧ ∀ src ∈ r, c.keyAt src ≠ 0 :=
    fun h r he => ⟨hr.free h r he, hr.occupied h r he⟩
  -- neighbours apart, all are
  have hapart : (hop :: rest).IsChain (fun dst src => Hop.cell dst ≠ Hop.cell src) →
      (hop :: rest).Pairwise fun h h' => Hop.cell h ≠ Hop.cell h' := by
    intro hchain
    refine List.pairwise_iff_getElem.mpr fun i j hi hj hlt he => ?_
    obtain ⟨rfl, _⟩ := route_neighbours hc hb hr hj hlt he
    exact List.isChain_iff_getElem.mp hchain i hj he
  have hstraight : ((hop :: rest).IsChain fun dst src =>
      hash c.buckets (c.keyAt src) .two = dst.index) ↔ c.Straight rest := by
    unfold Straight
    rw [← isChain_of_tail (a := hop) (P := fun src => src.table = .two →
      hash c.buckets (c.keyAt src) .one = hash c.buckets (c.keyAt src) .two)]
    simp only [List.isChain_iff_getElem]
    refine forall_congr' fun i => forall_congr' fun hi => ?_
    obtain ⟨_, hindex⟩ := route_step hr hi
    rw [hindex]
    cases (hop :: rest)[i + 1].table <;> simp [Side.other, eq_comm]
  constructor
  · intro h
    exact hstraight.mp ((displaceAll_iff (List.cons_ne_nil _ _) hslots
      (hapart (displaceAll_cells hslots h)) hkeys).mp h)
  · intro h
    refine (displaceAll_iff (List.cons_ne_nil _ _) hslots (hapart ?_) hkeys).mpr (hstraight.mpr h)
    refine List.isChain_iff_getElem.mpr fun i hi he => ?_
    obtain ⟨_, hdiff, htwo, hkey⟩ := route_neighbours hc hb hr hi (Nat.lt_succ_self i) he
    have hmem : (hop :: rest)[i + 1] ∈ rest := List.getElem_mem _
    rcases htwo with ht | ht
    · -- `path[i]` is not the empty slot, since its key is that of `path[i + 1]`
      cases i with
      | zero => exact (hkeys hop rest rfl).2 _ hmem (hkey.symm.trans (hkeys hop rest rfl).1)
      | succ i =>
        have := h (hop :: rest)[i + 1] (List.getElem_mem _) ht
        rw [hkey] at this
        exact hdiff this
    · exact hdiff (h _ hmem ht)

/-! ## A lone insert -/

/-- The keys `search` looks up in `paths` on its way, one for each branch. -/
def incoming (c : Cuckoo) (idx1 idx2 : Nat) (branches : List Branch) : List Word :=
  branches.map (Branch.incoming c.scheme c.view idx1 idx2)

/-- The entries of `Path` that have to give up their keys along a branch. -/
def sources (c : Cuckoo) (idx1 idx2 : Nat) (b : Branch) : List Hop :=
  hops c.scheme c.view (start idx1 idx2 b.root) b.slots

/-- A private insert of a key that is not there displaces along the first branch to a
bucket with an empty slot, unless the search has met a key twice before. Only a key
that leaves a tag-2 bucket against its second hash stops it. -/
def OneHash (c : Cuckoo) (key : Word) (idx1 idx2 : Nat) (rand : Nat → Nat) : Prop :=
  c.Missing key idx1 idx2 → ∀ pre b, FirstFree c.scheme c.view idx1 idx2 rand pre b →
    (c.incoming idx1 idx2 (pre ++ [b])).Nodup → c.Straight (c.sources idx1 idx2 b)

theorem scheme_depth (c : Cuckoo) : 0 < c.scheme.maxSearchDepth := Nat.succ_pos 4

theorem full_of_firstCheck (h : ∀ i < entryWidth, (c.table.getElement idx1 i).key ≠ 0 ∧
    (c.table.getElement idx2 i).key ≠ 0) (side : Side) :
    Full c.scheme c.view (start idx1 idx2 side) := by
  intro slot hs
  cases side
  · exact (h slot hs).1
  · exact (h slot hs).2

/-- The path of a search from two full buckets has a displacement in it. -/
theorem sources_ne_nil {rand : Nat → Nat} {pre : List Branch} {b : Branch}
    (hfull : ∀ side, Full c.scheme c.view (start idx1 idx2 side))
    (h : FirstFree c.scheme c.view idx1 idx2 rand pre b) : b.slots ≠ [] := by
  intro hnil
  refine h.free ?_
  unfold Branch.bucket
  rw [hnil]
  exact hfull b.root

theorem insertAt_ne_retry_iff (hc : c.WellPlaced) (h1 : idx1 < c.buckets) (h2 : idx2 < c.buckets)
    (rand : Nat → Nat) :
    (c.insertAt key idx1 idx2 rand).1 ≠ .retry ↔ c.OneHash key idx1 idx2 rand := by
  unfold insertAt OneHash
  rcases firstCheck_spec c key idx1 idx2 with ⟨side, idx, slot, hf, hb, hs, hk⟩ |
    ⟨side, idx, slot, hf, hm, hb, hs, h0⟩ | ⟨hf, hm, hfull⟩
  · -- a key that is there
    have hthere : ¬ c.Missing key idx1 idx2 := by
      intro hm
      rcases hb with rfl | rfl
      · exact (hm slot hs).1 hk
      · exact (hm slot hs).2 hk
    rw [hf]
    simp [hthere]
  · -- a bucket with room: the first branch to one goes nowhere
    rw [hf]
    refine ⟨fun _ _ pre b hb' _ => ?_, fun _ => by simp⟩
    have hshort : ∃ root, ¬ Full c.scheme c.view (start idx1 idx2 root) := by
      rcases hb with rfl | rfl
      · exact ⟨.one, fun hfull => hfull slot hs h0⟩
      · exact ⟨.two, fun hfull => hfull slot hs h0⟩
    obtain ⟨root, hroot⟩ := hshort
    have hnil : b.slots = [] := by
      by_contra hne
      have hvalid : Branch.Valid c.scheme ⟨root, []⟩ := ⟨by simp, c.scheme_depth⟩
      exact hroot (hb'.shortest c.scheme_depth hvalid (List.length_pos_iff.mpr hne))
    unfold sources
    rw [hnil]
    intro src hsrc
    cases hsrc
  · have hroots := full_of_firstCheck hfull
    rw [hf]
    cases hp : findPath c.scheme (.still c.view) rand idx1 idx2 with
    | none =>
      refine ⟨fun _ _ pre b hb hnd => ?_, fun _ => by simp⟩
      exact absurd hnd (search_none_iff.mp (Option.map_eq_none_iff.mp hp) pre b hb)
    | some path =>
      obtain ⟨pre, b, slot, hb, hnd, hpath, hroute⟩ := findPath_some c.scheme_depth hp
      have hgood := path_good hc.pos h1 h2 hp
      rw [hops_snoc, List.reverse_append, List.reverse_singleton, List.singleton_append] at hpath
      subst hpath
      have hlong : (c.sources idx1 idx2 b).reverse ≠ [] := by
        have := sources_ne_nil hroots hb
        unfold sources
        cases hslots : b.slots with
        | nil => exact absurd hslots this
        | cons s slots => simp [hops]
      have hloop := displaceAll_route hc hgood.bounds hroute
      have hstraight : c.Straight (c.sources idx1 idx2 b).reverse ↔
          c.Straight (c.sources idx1 idx2 b) := by
        simp [Straight]
      have honly : (c.Missing key idx1 idx2 → ∀ pre' b',
          FirstFree c.scheme c.view idx1 idx2 rand pre' b' →
          (c.incoming idx1 idx2 (pre' ++ [b'])).Nodup → c.Straight (c.sources idx1 idx2 b')) ↔
          c.Straight (c.sources idx1 idx2 b) := by
        refine ⟨fun h => h hm pre b hb hnd, fun h _ pre' b' hb' _ => ?_⟩
        obtain ⟨_, rfl⟩ := hb.unique hb'
        exact h
      rw [honly, ← hstraight]
      refine Iff.trans (not_congr ?_) hloop
      obtain ⟨src, rest, hcons⟩ := List.exists_cons_of_ne_nil hlong
      unfold sources at hcons
      rw [hcons]

end Cuckoo

/-- **No livelock.** A lone private insert answers something else than RETRY, and the
public insert returns in its first round, exactly when no key on the path found
leaves a tag-2 bucket against its second hash. All of it takes place in the memory of the
table, up to the bound on the buckets. -/
theorem lone_insert_returns_iff {c : Cuckoo} (hc : c.WellFormed) (element : Node)
    (rands : Nat → Nat → Nat) :
    (∀ idx1 < c.buckets, ∀ idx2 < c.buckets,
      ((c.insertAt element.key idx1 idx2 (rands 0)).1 ≠ .retry ↔
        c.OneHash element.key idx1 idx2 (rands 0))) ∧
    (c.insert element rands 1 ≠ none ↔
      c.OneHash element.key (hash c.buckets element.key .one) (hash c.buckets element.key .two)
        (rands 0)) ∧
    (c.buckets * entryWidth < 2 ^ 31 → ∀ other, (c.beside other).insert element rands 1 =
      (c.insert element rands 1).map (Prod.map id (·.beside other))) := by
  refine ⟨fun idx1 h1 idx2 h2 => Cuckoo.insertAt_ne_retry_iff hc.toWellPlaced h1 h2 (rands 0), ?_,
    fun hbuckets other => Cuckoo.insert_beside hbuckets hc.pos element rands 1⟩
  rw [← Cuckoo.insertAt_ne_retry_iff hc.toWellPlaced (hash_lt hc.pos element.key .one)
    (hash_lt hc.pos element.key .two)]
  unfold Cuckoo.insert
  simp only [Cuckoo.insertLoop]
  cases hres : c.insertAt element.key (hash c.buckets element.key .one)
      (hash c.buckets element.key .two) (rands 0) with
  | mk res d => cases res <;> simp

def inserts (keys : List Word) : List Call := keys.map fun key => ⟨.insert ⟨key, 0⟩, fun _ _ => 0, 1⟩

/-- The only bucket of the key 2 is full, and a key of it moves to the other one. -/
theorem lone_insert_returns_moved :
    ∃ s, exec callStep (Cuckoo.new 2, []) (inserts [4, 12, 18, 20, 22, 32, 36, 46]) = some s ∧
      (∀ i < entryWidth, (s.1.table.getElement 0 i).key ≠ 0) ∧
      (s.1.insert ⟨2, 0⟩ (fun _ _ => 0) 1).map Prod.fst = some .true ∧
      s.1.OneHash 2 (hash s.1.buckets 2 .one) (hash s.1.buckets 2 .two) (fun _ => 0) := by
  have hrun : (exec callStep (Cuckoo.new 2, []) (inserts [4, 12, 18, 20, 22, 32, 36, 46])).map
      (fun s => ((List.range entryWidth).all (fun i => (s.1.table.getElement 0 i).key != 0),
        (s.1.insert ⟨2, 0⟩ (fun _ _ => 0) 1).map Prod.fst)) = some (true, some .true) := by
    decide +kernel
  obtain ⟨s, hs, hdata⟩ := Option.map_eq_some_iff.mp hrun
  obtain ⟨hfull, hinsert⟩ := Prod.mk.inj hdata
  have hreturn : s.1.insert ⟨2, 0⟩ (fun _ _ => 0) 1 ≠ none := fun hnone => by
    rw [hnone] at hinsert
    cases hinsert
  refine ⟨s, hs, fun i hi => ?_, hinsert, ?_⟩
  · simpa using List.all_eq_true.mp hfull i (List.mem_range.mpr hi)
  · exact (lone_insert_returns_iff (run_wellFormed (by decide) hs).2 ⟨2, 0⟩
      fun _ _ => 0).2.1.mp hreturn

/-- Bucket 2 is filled, then bucket 0, then bucket 1 with keys that belong in bucket 2
first; at last a slot of bucket 2 is emptied. -/
def crowded : List Call :=
  inserts [14, 29, 44, 50, 56, 62, 68, 71] ++ inserts [9, 6, 12, 18, 24, 42, 45, 51] ++
    inserts [2, 5, 8, 20, 23, 26, 35, 38] ++ [⟨.remove 14, fun _ _ => 0, 1⟩]

/-- An insert of 21 finds the way from bucket 1, reached with tag 2, to the free slot of
bucket 2; the key 2 it would move has its first hash there and its second in bucket 1.
Nothing changes, so every round answers RETRY. -/
theorem insert_of_21_spins :
    ∃ s, exec callStep (Cuckoo.new 3, []) crowded = some s ∧ s.1.WellFormed ∧
      s.1.insertAt 21 (hash s.1.buckets 21 .one) (hash s.1.buckets 21 .two) (fun _ => 0) =
        (.retry, s.1) ∧
      ∀ fuel, s.1.insert ⟨21, 0⟩ (fun _ _ => 0) fuel = none := by
  have hrun : (exec callStep (Cuckoo.new 3, []) crowded).map (fun s =>
      (s.1.firstCheck 21 0 1, findPath s.1.scheme (.still s.1.view) (fun _ => 0) 0 1,
        (s.1.displace ⟨.one, 2, 0⟩ ⟨.two, 1, 0⟩).isNone)) =
      some (none, some [⟨.one, 2, 0⟩, ⟨.two, 1, 0⟩], true) := by
    decide +kernel
  obtain ⟨s, hs, hdata⟩ := Option.map_eq_some_iff.mp hrun
  obtain ⟨hfirst, hpath, hdisplace⟩ : _ ∧ _ ∧ _ := by simpa only [Prod.mk.injEq] using hdata
  obtain ⟨hb, hwf⟩ := run_wellFormed (by decide) hs
  have hidx1 : hash s.1.buckets 21 .one = 0 := by rw [hb]; decide +kernel
  have hidx2 : hash s.1.buckets 21 .two = 1 := by rw [hb]; decide +kernel
  have hretry : s.1.insertAt 21 0 1 (fun _ => 0) = (.retry, s.1) := by
    unfold Cuckoo.insertAt
    rw [hfirst, hpath]
    simp only [Cuckoo.displaceAll, Option.isNone_iff_eq_none.mp hdisplace]
  refine ⟨s, hs, hwf, by rw [hidx1, hidx2]; exact hretry, fun fuel => ?_⟩
  unfold Cuckoo.insert
  rw [hidx1, hidx2]
  have hspin : ∀ fuel n, Cuckoo.insertLoop ⟨21, 0⟩ 0 1 (fun _ _ => 0) fuel n s.1 = none := by
    intro fuel
    induction fuel with
    | zero => intro n; rfl
    | succ fuel ih =>
      intro n
      simp only [Cuckoo.insertLoop, hretry]
      exact ih (n + 1)
  exact hspin fuel 0

/-! ## Completeness of the search -/

namespace Cuckoo

/-- A chain of buckets, each but the first the other bucket of an occupant of the one
before: at most `MAX_SEARCH_DEPTH` of them, the last with an empty slot. -/
structure Leads (c : Cuckoo) (idx1 idx2 : Nat) (b : Branch) : Prop where
  slots : ∀ s ∈ b.slots, s < entryWidth
  short : b.slots.length + 1 ≤ maxSearchDepth
  occupied : ∀ hop ∈ c.sources idx1 idx2 b, c.keyAt hop ≠ 0
  free : ∃ slot < entryWidth, c.view (b.bucket c.scheme c.view idx1 idx2).1
    (b.bucket c.scheme c.view idx1 idx2).2 slot = 0

/-- Up to the first branch to a bucket with an empty slot no key is met twice. -/
def NoRepeat (c : Cuckoo) (idx1 idx2 : Nat) (rand : Nat → Nat) : Prop :=
  ∀ pre b, FirstFree c.scheme c.view idx1 idx2 rand pre b →
    (c.incoming idx1 idx2 (pre ++ [b])).Nodup

end Cuckoo

/-- **Completeness of the search.** It fails only if no chain leads to an empty slot,
exactly when no key is met twice before the first bucket that has one. -/
theorem search_complete_iff (c : Cuckoo) (idx1 idx2 : Nat) (rand : Nat → Nat) :
    (search c.scheme (Reads.still c.view).search rand idx1 idx2 = none →
      ¬ ∃ b, c.Leads idx1 idx2 b) ↔ c.NoRepeat idx1 idx2 rand := by
  rw [search_none_iff]
  constructor
  · intro h pre b hb
    by_contra hdup
    refine h (fun pre' b' hb' => ?_) ⟨b, ?_⟩
    · obtain ⟨rfl, rfl⟩ := hb.unique hb'
      exact hdup
    · have hvalid := hb.valid c.scheme_depth
      have hfree := hb.free
      unfold Full at hfree
      push Not at hfree
      exact ⟨hvalid.slots, hvalid.short, hb.occupied c.scheme_depth, hfree⟩
  · intro h hnone hex
    obtain ⟨b, hb⟩ := hex
    obtain ⟨slot, hs, h0⟩ := hb.free
    obtain ⟨pre, b', hfirst⟩ := FirstFree.exists (g := c.scheme) rand c.scheme_depth
      ⟨hb.slots, hb.short⟩ fun hfull => hfull slot hs h0
    exact hnone pre b' hfirst (h pre b' hfirst)

/-- Bucket 0 is filled with the key 2, which has both hashes there, and seven keys
whose second hash is the empty bucket 1. -/
def selfLoop : List Call := inserts [2, 4, 12, 18, 20, 22, 32, 36]

/-- From bucket 0 the slot of the key 2 leads back to bucket 0, where the search looks
the key up that it has met at the start, and gives up; the next slot leads to bucket 1. -/
theorem search_gives_up :
    ∃ s, exec callStep (Cuckoo.new 2, []) selfLoop = some s ∧ s.1.WellFormed ∧
      (∀ i < entryWidth, (s.1.table.getElement 0 i).key ≠ 0) ∧
      search s.1.scheme (Reads.still s.1.view).search (fun _ => 0) 0 0 = none ∧
      s.1.Leads 0 0 ⟨.one, [1]⟩ := by
  have hrun : (exec callStep (Cuckoo.new 2, []) selfLoop).map (fun s =>
      (search s.1.scheme (Reads.still s.1.view).search (fun _ => 0) 0 0,
        (List.range entryWidth).all (fun i => (s.1.table.getElement 0 i).key != 0),
        hash s.1.buckets (s.1.table.getElement 0 1).key .two,
        (s.1.table.getElement 1 0).key)) = some (none, true, 1, 0) := by
    decide +kernel
  obtain ⟨s, hs, hdata⟩ := Option.map_eq_some_iff.mp hrun
  obtain ⟨hsearch, hfull, hnext, hfree⟩ : _ ∧ _ ∧ _ ∧ _ := by
    simpa only [Prod.mk.injEq] using hdata
  have hfull : ∀ i < entryWidth, (s.1.table.getElement 0 i).key ≠ 0 := by
    intro i hi
    simpa using List.all_eq_true.mp hfull i (List.mem_range.mpr hi)
  refine ⟨s, hs, (run_wellFormed (by decide) hs).2, hfull, hsearch, ⟨by decide, by decide, ?_, ?_⟩⟩
  · intro hop hm
    rw [List.mem_singleton.mp hm]
    exact hfull 1 (by decide)
  · refine ⟨0, by decide, ?_⟩
    have hbucket : Branch.bucket s.1.scheme s.1.view 0 0 ⟨.one, [1]⟩ = (.two, 1) :=
      Prod.ext rfl hnext
    rw [hbucket]
    exact hfree

end ConcurrentComputing.Store
