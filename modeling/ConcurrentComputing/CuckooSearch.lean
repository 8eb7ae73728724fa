import ConcurrentComputing.CuckooPath

/-! # The path search over a table nobody writes

The queue loop of `search` walks a tree: a branch starts in one of the two buckets
and goes on through slots whose occupants name the next bucket. `breadthFirst` lists
the branches in queue order, and the search is told by that list alone: it ends at
the first branch to a bucket with an empty slot, unless a key is met twice before.
Being first in the list, that branch is a shortest one, so it never comes back to a
bucket, and decoding its pathcode gives back its slots. -/

namespace ConcurrentComputing.CuckooPath

variable {κ : Type} [DecidableEq κ] (g : Scheme κ) (v : View κ)

/-! ## Branches -/

/-- A table and an index in it. -/
abbrev Bucket := Side × Nat

/-- A branch of the search tree: the table it starts in, and the slots through which
it goes on. -/
structure Branch where
  root : Side
  slots : List Nat
  deriving DecidableEq, Repr

def start (idx1 idx2 : Nat) : Side → Bucket
  | .one => (.one, idx1)
  | .two => (.two, idx2)

/-- The pathcode a branch starts with. -/
def rootCode : Side → Nat
  | .one => 0
  | .two => 1

/-- The other bucket of the occupant of a slot. -/
def next (bucket : Bucket) (slot : Nat) : Bucket :=
  (bucket.1.other, g.hash (v bucket.1 bucket.2 slot) bucket.1.other)

def follow (bucket : Bucket) (slots : List Nat) : Bucket := slots.foldl (next g v) bucket

def encode (width pathcode : Nat) (slots : List Nat) : Nat :=
  slots.foldl (fun pathcode slot => pathcode * width + slot) pathcode

/-- The bucket a branch ends in. -/
def Branch.bucket (idx1 idx2 : Nat) (b : Branch) : Bucket :=
  follow g v (start idx1 idx2 b.root) b.slots

/-- The point that stands for a branch in the queue. -/
def Branch.point (idx1 idx2 : Nat) (b : Branch) : Point where
  table := (b.bucket g v idx1 idx2).1
  index := (b.bucket g v idx1 idx2).2
  pathcode := encode g.width (rootCode b.root) b.slots
  depth := b.slots.length

/-- The point `search` returns at a branch: its pathcode has one slot more. -/
def Branch.found (idx1 idx2 : Nat) (b : Branch) (slot : Nat) : Point :=
  { b.point g v idx1 idx2 with pathcode := encode g.width (rootCode b.root) (b.slots ++ [slot]) }

/-- No slot of the bucket is empty. -/
def Full (bucket : Bucket) : Prop := ∀ slot < g.width, v bucket.1 bucket.2 slot ≠ g.empty

/-- The key `search` looks up in `paths`: the one in the bucket of the branch at the
slot through which the branch came. -/
def Branch.incoming (idx1 idx2 : Nat) (b : Branch) : κ :=
  v (b.bucket g v idx1 idx2).1 (b.bucket g v idx1 idx2).2
    (encode g.width (rootCode b.root) b.slots % g.width)

def Branch.snoc (b : Branch) (slot : Nat) : Branch := ⟨b.root, b.slots ++ [slot]⟩

/-- The branches one slot longer, in scan order. -/
def children (startSlot : Nat) (b : Branch) : List Branch :=
  if b.slots.length < g.maxSearchDepth - 1 then
    (List.range g.width).map fun i => b.snoc ((startSlot + i) % g.width)
  else []

/-- The branches in the order in which the queue yields them when neither rule of
`search` stops it. -/
def breadthFirst (rand : Nat → Nat) : Nat → Nat → List Branch → List Branch
  | 0, _, _ => []
  | _ + 1, _, [] => []
  | fuel + 1, n, b :: q =>
    b :: breadthFirst rand fuel (n + 1) (q ++ children g (rand n % g.width) b)

/-- The whole search tree in queue order. -/
def tree (rand : Nat → Nat) : List Branch :=
  breadthFirst g rand (2 * treeSize g.width g.maxSearchDepth + 1) 0 [⟨.one, []⟩, ⟨.two, []⟩]

/-- `b` is the first branch of the tree whose bucket has an empty slot, and `pre` are
the branches before it. -/
structure FirstFree (idx1 idx2 : Nat) (rand : Nat → Nat) (pre : List Branch) (b : Branch) :
    Prop where
  listed : pre ++ [b] <+: tree g rand
  full : ∀ x ∈ pre, Full g v (x.bucket g v idx1 idx2)
  free : ¬ Full g v (b.bucket g v idx1 idx2)

/-- A branch the search may walk: slots in range, and not too many. -/
structure Branch.Valid (b : Branch) : Prop where
  slots : ∀ s ∈ b.slots, s < g.width
  short : b.slots.length < g.maxSearchDepth

variable {g v} {idx1 idx2 : Nat}

omit [DecidableEq κ] in
theorem Branch.bucket_snoc (b : Branch) (slot : Nat) :
    (b.snoc slot).bucket g v idx1 idx2 = next g v (b.bucket g v idx1 idx2) slot := by
  simp [Branch.bucket, Branch.snoc, follow]

omit [DecidableEq κ] in
theorem Branch.point_snoc (b : Branch) (slot : Nat) :
    (b.snoc slot).point g v idx1 idx2 = nextPoint g v (b.point g v idx1 idx2) slot := by
  simp only [Branch.point, Branch.bucket_snoc]
  simp [nextPoint, next, encode, Branch.snoc]

/-! ## One round -/

/-- Starting anywhere, the scan comes to every slot. -/
theorem exists_turn {width slot : Nat} (startSlot : Nat) (hs : slot < width) :
    ∃ i < width, (startSlot + i) % width = slot := by
  have hw : 0 < width := by omega
  have hlt := Nat.mod_lt startSlot hw
  have hround : startSlot + (slot + width - startSlot % width) =
      slot + width * (startSlot / width + 1) := by
    have := Nat.div_add_mod startSlot width
    rw [Nat.mul_add, Nat.mul_one]
    omega
  refine ⟨(slot + width - startSlot % width) % width, Nat.mod_lt _ hw, ?_⟩
  rw [Nat.add_mod_mod, hround, Nat.add_mul_mod_self_left, Nat.mod_eq_of_lt hs]

/-- A full bucket: every slot is passed, and pushes unless the depth forbids it. -/
theorem scan_full {point : Point} {startSlot : Nat}
    (hfull : Full g v (point.table, point.index)) : ∀ {todo : Nat} {pushed : List Point},
      todo ≤ g.width → scan g (fun _ => v) point startSlot todo pushed =
        .pushed (pushed ++ if point.depth < g.maxSearchDepth - 1 then
          (List.range' (g.width - todo) todo).map fun i =>
            nextPoint g v point ((startSlot + i) % g.width)
        else [])
  | 0, pushed, _ => by simp [scan]
  | todo + 1, pushed, ht => by
    have hne : v point.table point.index ((startSlot + (g.width - (todo + 1))) % g.width) ≠
        g.empty := hfull _ (Nat.mod_lt _ (by omega))
    simp only [scan, if_neg hne]
    rw [List.range'_succ, show g.width - (todo + 1) + 1 = g.width - todo by omega]
    split
    · rename_i hdepth
      rw [scan_full hfull (by omega), if_pos hdepth]
      simp
    · rename_i hdepth
      rw [scan_full hfull (by omega), if_neg hdepth]

/-- A bucket with an empty slot among those to go. -/
theorem scan_free {point : Point} {startSlot : Nat} : ∀ {todo : Nat} (pushed : List Point),
    todo ≤ g.width → (∃ i < g.width, g.width - todo ≤ i ∧
      v point.table point.index ((startSlot + i) % g.width) = g.empty) →
    ∃ slot < g.width, v point.table point.index slot = g.empty ∧
      scan g (fun _ => v) point startSlot todo pushed =
        .found { point with pathcode := point.pathcode * g.width + slot }
  | 0, pushed, _, h => by
    obtain ⟨i, hi, hle, _⟩ := h
    omega
  | todo + 1, pushed, ht, h => by
    obtain ⟨i, hi, hle, he⟩ := h
    simp only [scan]
    split
    · rename_i h0
      exact ⟨_, Nat.mod_lt _ (by omega), h0, rfl⟩
    · rename_i h0
      have hne : i ≠ g.width - (todo + 1) := fun hi' => h0 (hi' ▸ he)
      have hmore : ∃ i < g.width, g.width - todo ≤ i ∧
          v point.table point.index ((startSlot + i) % g.width) = g.empty :=
        ⟨i, hi, by omega, he⟩
      split
      · exact scan_free _ (by omega) hmore
      · exact scan_free _ (by omega) hmore

/-- A round at a branch whose incoming key is among those met. -/
theorem searchLoop_seen {rand : Nat → Nat} {fuel n : Nat} {b : Branch} {q : List Branch}
    {paths : List κ} (h : b.incoming g v idx1 idx2 ∈ paths) :
    searchLoop g (fun _ _ => v) rand (fuel + 1) n ((b :: q).map (Branch.point g v idx1 idx2))
      paths = none :=
  if_pos h

/-- A round at a branch to a full bucket. -/
theorem searchLoop_full {rand : Nat → Nat} {fuel n : Nat} {b : Branch} {q : List Branch}
    {paths : List κ} (h : b.incoming g v idx1 idx2 ∉ paths)
    (hfull : Full g v (b.bucket g v idx1 idx2)) :
    searchLoop g (fun _ _ => v) rand (fuel + 1) n ((b :: q).map (Branch.point g v idx1 idx2))
        paths =
      searchLoop g (fun _ _ => v) rand fuel (n + 1)
        ((q ++ children g (rand n % g.width) b).map (Branch.point g v idx1 idx2))
        (b.incoming g v idx1 idx2 :: paths) := by
  have hs : scan g (fun _ => v) (b.point g v idx1 idx2) (rand n % g.width) g.width [] =
      .pushed ((children g (rand n % g.width) b).map (Branch.point g v idx1 idx2)) := by
    rw [scan_full hfull (Nat.le_refl _), Nat.sub_self, List.nil_append, ← List.range_eq_range']
    have hdepth : (b.point g v idx1 idx2).depth = b.slots.length := rfl
    rw [hdepth]
    unfold children
    split
    · rw [List.map_map]
      exact congrArg Scan.pushed (List.map_congr_left fun i _ => (b.point_snoc _).symm)
    · rfl
  rw [List.map_append]
  refine (if_neg h).trans ?_
  simp only [hs]
  rfl

/-- A round at a branch to a bucket with an empty slot. -/
theorem searchLoop_free (rand : Nat → Nat) (fuel n : Nat) {b : Branch} (q : List Branch)
    {paths : List κ} (h : b.incoming g v idx1 idx2 ∉ paths)
    (hfree : ¬ Full g v (b.bucket g v idx1 idx2)) :
    ∃ slot < g.width, v (b.bucket g v idx1 idx2).1 (b.bucket g v idx1 idx2).2 slot = g.empty ∧
      searchLoop g (fun _ _ => v) rand (fuel + 1) n ((b :: q).map (Branch.point g v idx1 idx2))
        paths = some (b.found g v idx1 idx2 slot) := by
  have hslot : ∃ i < g.width, g.width - g.width ≤ i ∧
      v (b.point g v idx1 idx2).table (b.point g v idx1 idx2).index
        ((rand n % g.width + i) % g.width) = g.empty := by
    unfold Full at hfree
    push Not at hfree
    obtain ⟨slot, hs, he⟩ := hfree
    obtain ⟨i, hi, rfl⟩ := exists_turn (rand n % g.width) hs
    exact ⟨i, hi, by omega, he⟩
  obtain ⟨slot, hlt, he, hs⟩ := scan_free [] (Nat.le_refl _) hslot
  refine ⟨slot, hlt, he, (if_neg h).trans ?_⟩
  simp only [hs]
  simp [Branch.found, Branch.point, encode]

/-! ## The list of branches -/

omit [DecidableEq κ] in
theorem children_spec {b x : Branch} {startSlot : Nat} (hb : b.Valid g)
    (hx : x ∈ children g startSlot b) :
    x.Valid g ∧ x.slots.length = b.slots.length + 1 := by
  unfold children at hx
  split at hx
  · rename_i hdepth
    obtain ⟨i, hi, rfl⟩ := List.mem_map.mp hx
    have hw : 0 < g.width := by have := List.mem_range.mp hi; omega
    refine ⟨⟨?_, ?_⟩, ?_⟩
    · intro s hs
      rcases List.mem_append.mp hs with hs | hs
      · exact hb.slots s hs
      · rw [List.mem_singleton.mp hs]
        exact Nat.mod_lt _ hw
    · simp only [Branch.snoc, List.length_append, List.length_singleton]
      omega
    · simp [Branch.snoc]
  · cases hx

omit [DecidableEq κ] in
/-- The queue after a round. -/
theorem valid_push {b : Branch} {q : List Branch} (h : ∀ x ∈ b :: q, x.Valid g)
    (startSlot : Nat) : ∀ x ∈ q ++ children g startSlot b, x.Valid g := by
  intro x hx
  rcases List.mem_append.mp hx with hx | hx
  · exact h x (List.mem_cons_of_mem _ hx)
  · exact (children_spec (h b (by simp)) hx).1

omit [DecidableEq κ] in
theorem breadthFirst_valid {rand : Nat → Nat} : ∀ {fuel n : Nat} {q : List Branch},
    (∀ b ∈ q, b.Valid g) → ∀ b ∈ breadthFirst g rand fuel n q, b.Valid g := by
  intro fuel
  induction fuel with
  | zero => intro n q _ b hb; cases hb
  | succ fuel ih =>
    intro n q hq b hb
    cases q with
    | nil => cases hb
    | cons b₀ q =>
      rcases List.mem_cons.mp hb with rfl | hb
      · exact hq b (by simp)
      · exact ih (valid_push hq _) b hb

/-- The queue holds branches of at most two lengths, the shorter ones first. -/
def Banded (q : List Branch) : Prop :=
  q.Pairwise fun a b => a.slots.length ≤ b.slots.length ∧ b.slots.length ≤ a.slots.length + 1

omit [DecidableEq κ] in
theorem Banded.push {b : Branch} {q : List Branch} {startSlot : Nat} (hb : b.Valid g)
    (h : Banded (b :: q)) : Banded (q ++ children g startSlot b) := by
  obtain ⟨hhead, htail⟩ := List.pairwise_cons.mp h
  refine List.pairwise_append.mpr ⟨htail, ?_, ?_⟩
  · refine List.pairwise_of_forall_mem_list fun x hx y hy => ?_
    have hx := (children_spec hb hx).2
    have hy := (children_spec hb hy).2
    omega
  · intro x hx y hy
    have hx := hhead x hx
    have hy := (children_spec hb hy).2
    omega

omit [DecidableEq κ] in
theorem breadthFirst_ge {rand : Nat → Nat} {d : Nat} : ∀ {fuel n : Nat} {q : List Branch},
    (∀ b ∈ q, b.Valid g) → (∀ b ∈ q, d ≤ b.slots.length) →
    ∀ b ∈ breadthFirst g rand fuel n q, d ≤ b.slots.length := by
  intro fuel
  induction fuel with
  | zero => intro n q _ _ b hb; cases hb
  | succ fuel ih =>
    intro n q hq hd b hb
    cases q with
    | nil => cases hb
    | cons b₀ q =>
      rcases List.mem_cons.mp hb with rfl | hb
      · exact hd b (by simp)
      · refine ih (valid_push hq _) (fun x hx => ?_) b hb
        rcases List.mem_append.mp hx with hx | hx
        · exact hd x (List.mem_cons_of_mem _ hx)
        · have := (children_spec (hq b₀ (by simp)) hx).2
          have := hd b₀ (by simp)
          omega

omit [DecidableEq κ] in
/-- Shorter branches come first. -/
theorem breadthFirst_sorted {rand : Nat → Nat} : ∀ {fuel n : Nat} {q : List Branch},
    (∀ b ∈ q, b.Valid g) → Banded q →
    (breadthFirst g rand fuel n q).Pairwise fun a b => a.slots.length ≤ b.slots.length := by
  intro fuel
  induction fuel with
  | zero => intro n q _ _; exact List.Pairwise.nil
  | succ fuel ih =>
    intro n q hq hb
    cases q with
    | nil => exact List.Pairwise.nil
    | cons b₀ q =>
      have hq₀ := hq b₀ (by simp)
      have hq' := valid_push hq (rand n % g.width)
      refine List.pairwise_cons.mpr ⟨breadthFirst_ge hq' fun x hx => ?_, ih hq' (hb.push hq₀)⟩
      rcases List.mem_append.mp hx with hx | hx
      · exact ((List.pairwise_cons.mp hb).1 x hx).1
      · have := (children_spec hq₀ hx).2
        omega

/-- The rounds the branches of a queue can still give rise to. -/
def branchWeight (g : Scheme κ) (q : List Branch) : Nat :=
  (q.map fun b => treeSize g.width (g.maxSearchDepth - b.slots.length)).sum

omit [DecidableEq κ] in
theorem branchWeight_children (b : Branch) (hb : b.Valid g) (startSlot : Nat) :
    branchWeight g (children g startSlot b) + 1 ≤
      treeSize g.width (g.maxSearchDepth - b.slots.length) := by
  have htree : treeSize g.width (g.maxSearchDepth - b.slots.length) =
      1 + g.width * treeSize g.width (g.maxSearchDepth - (b.slots.length + 1)) := by
    have := hb.short
    rw [show g.maxSearchDepth - b.slots.length =
      g.maxSearchDepth - (b.slots.length + 1) + 1 by omega]
    rfl
  have hsum : branchWeight g (children g startSlot b) ≤
      g.width * treeSize g.width (g.maxSearchDepth - (b.slots.length + 1)) := by
    unfold children
    split
    · simp [branchWeight, Branch.snoc, Function.comp_def, List.map_const']
    · exact Nat.zero_le _
  omega

omit [DecidableEq κ] in
/-- Given the rounds, no branch that goes on from the queue is left out. -/
theorem breadthFirst_complete {rand : Nat → Nat} : ∀ {fuel n : Nat} {q : List Branch},
    (∀ b ∈ q, b.Valid g) → branchWeight g q < fuel → ∀ b ∈ q, ∀ slots : List Nat,
    Branch.Valid g ⟨b.root, b.slots ++ slots⟩ →
    ⟨b.root, b.slots ++ slots⟩ ∈ breadthFirst g rand fuel n q := by
  intro fuel
  induction fuel with
  | zero => intro n q _ h; omega
  | succ fuel ih =>
    intro n q hq hw b hb slots hv
    cases q with
    | nil => cases hb
    | cons b₀ q =>
      have hq₀ := hq b₀ (by simp)
      have hq' := valid_push hq (rand n % g.width)
      have hw' : branchWeight g (q ++ children g (rand n % g.width) b₀) < fuel := by
        have hchildren := branchWeight_children b₀ hq₀ (rand n % g.width)
        simp only [branchWeight, List.map_append, List.sum_append, List.map_cons,
          List.sum_cons] at hw hchildren ⊢
        omega
      rcases List.mem_cons.mp hb with rfl | hb
      · cases slots with
        | nil => simp [breadthFirst]
        | cons slot slots =>
          -- the branch goes on through a child of the one just taken
          have hslot : slot < g.width := hv.slots slot (by simp)
          have hshort : b.slots.length < g.maxSearchDepth - 1 := by
            have := hv.short
            simp only [List.length_append, List.length_cons] at this
            omega
          have hchild : b.snoc slot ∈ children g (rand n % g.width) b := by
            unfold children
            rw [if_pos hshort]
            obtain ⟨i, hi, rfl⟩ := exists_turn (rand n % g.width) hslot
            exact List.mem_map.mpr ⟨i, List.mem_range.mpr hi, rfl⟩
          have := ih (n := n + 1) hq' hw' _ (List.mem_append_right _ hchild) slots
            (by simpa [Branch.snoc] using hv)
          exact List.mem_cons_of_mem _ (by simpa [Branch.snoc] using this)
      · exact List.mem_cons_of_mem _ (ih hq' hw' b (List.mem_append_left _ hb) slots hv)

/-! ## The search, told by the list -/

/-- Where a search that finds something stops. -/
theorem searchLoop_some {rand : Nat → Nat} {p : Point} :
    ∀ {fuel n : Nat} {q : List Branch} {paths : List κ},
      searchLoop g (fun _ _ => v) rand fuel n (q.map (Branch.point g v idx1 idx2)) paths = some p →
      ∃ pre b slot, pre ++ [b] <+: breadthFirst g rand fuel n q ∧
        (∀ x ∈ pre, Full g v (x.bucket g v idx1 idx2)) ∧
        (slot < g.width ∧ v (b.bucket g v idx1 idx2).1 (b.bucket g v idx1 idx2).2 slot = g.empty) ∧
        p = b.found g v idx1 idx2 slot ∧
        ((pre ++ [b]).map (Branch.incoming g v idx1 idx2)).Nodup ∧
        ∀ x ∈ pre ++ [b], x.incoming g v idx1 idx2 ∉ paths := by
  intro fuel
  induction fuel with
  | zero => intro n q paths h; cases h
  | succ fuel ih =>
    intro n q paths h
    cases q with
    | nil => cases h
    | cons b₀ q =>
      by_cases hseen : b₀.incoming g v idx1 idx2 ∈ paths
      · rw [searchLoop_seen hseen] at h
        cases h
      by_cases hfull : Full g v (b₀.bucket g v idx1 idx2)
      · rw [searchLoop_full hseen hfull] at h
        obtain ⟨pre, b, slot, hpre, hall, hslot, hp, hnd, hout⟩ := ih h
        have hout₀ : ∀ x ∈ pre ++ [b],
            x.incoming g v idx1 idx2 ≠ b₀.incoming g v idx1 idx2 ∧
              x.incoming g v idx1 idx2 ∉ paths := by
          intro x hx
          have := hout x hx
          rw [List.mem_cons, not_or] at this
          exact this
        refine ⟨b₀ :: pre, b, slot, List.cons_prefix_cons.mpr ⟨rfl, hpre⟩, ?_, hslot, hp, ?_, ?_⟩
        · intro x hx
          rcases List.mem_cons.mp hx with rfl | hx
          · exact hfull
          · exact hall x hx
        · rw [List.cons_append, List.map_cons]
          refine List.nodup_cons.mpr ⟨fun hm => ?_, hnd⟩
          obtain ⟨x, hx, he⟩ := List.mem_map.mp hm
          exact (hout₀ x hx).1 he
        · intro x hx
          rcases List.mem_cons.mp hx with rfl | hx
          · exact hseen
          · exact (hout₀ x hx).2
      · obtain ⟨slot, hslot, h0, hs⟩ := searchLoop_free rand fuel n q hseen hfull
        rw [hs] at h
        cases h
        refine ⟨[], b₀, slot, List.cons_prefix_cons.mpr ⟨rfl, List.nil_prefix⟩, by simp,
          ⟨hslot, h0⟩, rfl, by simp, ?_⟩
        intro x hx
        rw [List.mem_singleton.mp hx]
        exact hseen

/-- A search that finds nothing has met a key twice before the first bucket with an
empty slot, if there is one. -/
theorem searchLoop_none {rand : Nat → Nat} :
    ∀ {fuel n : Nat} {q : List Branch} {paths : List κ},
      searchLoop g (fun _ _ => v) rand fuel n (q.map (Branch.point g v idx1 idx2)) paths = none →
      ∀ pre b, pre ++ [b] <+: breadthFirst g rand fuel n q →
        (∀ x ∈ pre, Full g v (x.bucket g v idx1 idx2)) → ¬ Full g v (b.bucket g v idx1 idx2) →
        ((pre ++ [b]).map (Branch.incoming g v idx1 idx2)).Nodup →
        ∃ x ∈ pre ++ [b], x.incoming g v idx1 idx2 ∈ paths := by
  intro fuel
  induction fuel with
  | zero =>
    intro n q paths _ pre b hpre
    simp [breadthFirst] at hpre
  | succ fuel ih =>
    intro n q paths h pre b hpre hall hfree hnd
    cases q with
    | nil => simp [breadthFirst] at hpre
    | cons b₀ q =>
      cases pre with
      | nil =>
        obtain ⟨rfl, _⟩ := List.cons_prefix_cons.mp hpre
        by_cases hseen : b.incoming g v idx1 idx2 ∈ paths
        · exact ⟨b, by simp, hseen⟩
        · obtain ⟨_, _, _, hs⟩ := searchLoop_free rand fuel n q hseen hfree
          rw [hs] at h
          cases h
      | cons x pre =>
        obtain ⟨rfl, hpre⟩ := List.cons_prefix_cons.mp hpre
        by_cases hseen : x.incoming g v idx1 idx2 ∈ paths
        · exact ⟨x, by simp, hseen⟩
        · rw [searchLoop_full hseen (hall x (by simp))] at h
          rw [List.cons_append, List.map_cons] at hnd
          obtain ⟨hnotin, hnd⟩ := List.nodup_cons.mp hnd
          obtain ⟨y, hy, hmem⟩ := ih h pre b hpre
            (fun y hy => hall y (List.mem_cons_of_mem _ hy)) hfree hnd
          rcases List.mem_cons.mp hmem with he | hmem
          · exact absurd (List.mem_map.mpr ⟨y, hy, he⟩) hnotin
          · exact ⟨y, List.mem_cons_of_mem _ hy, hmem⟩

omit [DecidableEq κ] in
theorem roots_valid (hd : 0 < g.maxSearchDepth) :
    ∀ b ∈ ([⟨.one, []⟩, ⟨.two, []⟩] : List Branch), b.Valid g := by
  intro b hb
  simp only [List.mem_cons, List.not_mem_nil, or_false] at hb
  rcases hb with rfl | rfl <;> exact ⟨by simp, hd⟩

omit [DecidableEq κ] in
theorem roots_map : [⟨.one, idx1, 0, 0⟩, ⟨.two, idx2, 1, 0⟩] =
    ([⟨.one, []⟩, ⟨.two, []⟩] : List Branch).map (Branch.point g v idx1 idx2) := rfl

/-- What a search over a still table finds: an empty slot at the end of the first
branch to a bucket that has one. -/
theorem search_some {rand : Nat → Nat} {p : Point}
    (h : search g (Reads.still v).search rand idx1 idx2 = some p) :
    ∃ pre b slot, FirstFree g v idx1 idx2 rand pre b ∧
      (slot < g.width ∧ v (b.bucket g v idx1 idx2).1 (b.bucket g v idx1 idx2).2 slot = g.empty) ∧
      p = b.found g v idx1 idx2 slot ∧
      ((pre ++ [b]).map (Branch.incoming g v idx1 idx2)).Nodup := by
  unfold search at h
  rw [roots_map (g := g) (v := v)] at h
  obtain ⟨pre, b, slot, hpre, hall, hslot, hp, hnd, _⟩ := searchLoop_some h
  exact ⟨pre, b, slot, ⟨hpre, hall, fun hfull => hfull slot hslot.1 hslot.2⟩, hslot, hp, hnd⟩

omit [DecidableEq κ] in
theorem FirstFree.unique {rand : Nat → Nat} {pre pre' : List Branch} {b b' : Branch}
    (h : FirstFree g v idx1 idx2 rand pre b) (h' : FirstFree g v idx1 idx2 rand pre' b') :
    pre = pre' ∧ b = b' := by
  have hle : ∀ {pre pre' : List Branch} {b b' : Branch},
      FirstFree g v idx1 idx2 rand pre b → FirstFree g v idx1 idx2 rand pre' b' →
      pre.length ≤ pre'.length := by
    intro pre pre' b b' h h'
    by_contra hlt
    -- `b'` stands in the list where `pre` still runs
    have hsub : pre' ++ [b'] <+: pre ++ [b] :=
      List.prefix_of_prefix_length_le h'.listed h.listed (by simp; omega)
    have hmem : pre' ++ [b'] <+: pre :=
      List.prefix_of_prefix_length_le hsub (List.prefix_append _ _) (by simp; omega)
    exact h'.free (h.full b' (hmem.subset (by simp)))
  have hlen : pre.length = pre'.length := Nat.le_antisymm (hle h h') (hle h' h)
  have heq : pre ++ [b] = pre' ++ [b'] :=
    (List.prefix_of_prefix_length_le h.listed h'.listed (by simp [hlen])).eq_of_length
      (by simp [hlen])
  obtain ⟨rfl, hb⟩ := List.append_inj heq hlen
  exact ⟨rfl, List.singleton_inj.mp hb⟩

/-- **When a search over a still table fails.** -/
theorem search_none_iff {rand : Nat → Nat} :
    search g (Reads.still v).search rand idx1 idx2 = none ↔
      ∀ pre b, FirstFree g v idx1 idx2 rand pre b →
        ¬ ((pre ++ [b]).map (Branch.incoming g v idx1 idx2)).Nodup := by
  refine ⟨fun h pre b hb hnd => ?_, fun h => ?_⟩
  · unfold search at h
    rw [roots_map (g := g) (v := v)] at h
    obtain ⟨x, _, hx⟩ := searchLoop_none h pre b hb.listed hb.full hb.free hnd
    cases hx
  · cases hs : search g (Reads.still v).search rand idx1 idx2 with
    | none => rfl
    | some p =>
      obtain ⟨pre, b, _, hb, _, _, hnd⟩ := search_some hs
      exact absurd hnd (h pre b hb)

omit [DecidableEq κ] in
theorem tree_complete (rand : Nat → Nat) (hd : 0 < g.maxSearchDepth) {b : Branch}
    (hb : b.Valid g) : b ∈ tree g rand := by
  have hweight : branchWeight g [⟨.one, []⟩, ⟨.two, []⟩] <
      2 * treeSize g.width g.maxSearchDepth + 1 := by
    simp [branchWeight]; omega
  have hroot : (⟨b.root, []⟩ : Branch) ∈ ([⟨.one, []⟩, ⟨.two, []⟩] : List Branch) := by
    cases b.root <;> simp
  exact breadthFirst_complete (roots_valid hd) hweight _ hroot b.slots hb

omit [DecidableEq κ] in
theorem tree_sorted (rand : Nat → Nat) (hd : 0 < g.maxSearchDepth) :
    (tree g rand).Pairwise fun a b => a.slots.length ≤ b.slots.length :=
  breadthFirst_sorted (roots_valid hd) (by simp [Banded])

omit [DecidableEq κ] in
theorem FirstFree.valid {rand : Nat → Nat} {pre : List Branch} {b : Branch}
    (hd : 0 < g.maxSearchDepth) (h : FirstFree g v idx1 idx2 rand pre b) : b.Valid g :=
  breadthFirst_valid (roots_valid hd) b (h.listed.subset (by simp))

omit [DecidableEq κ] in
/-- Every shorter branch ends in a full bucket: the first one is a shortest one. -/
theorem FirstFree.shortest {rand : Nat → Nat} {pre : List Branch} {b b' : Branch}
    (hd : 0 < g.maxSearchDepth) (h : FirstFree g v idx1 idx2 rand pre b) (hb' : b'.Valid g)
    (hlt : b'.slots.length < b.slots.length) : Full g v (b'.bucket g v idx1 idx2) := by
  obtain ⟨rest, hrest⟩ := h.listed
  have hmem := tree_complete rand hd hb'
  have hsorted := tree_sorted (g := g) rand hd
  rw [← hrest, List.append_assoc] at hmem hsorted
  rcases List.mem_append.mp hmem with hmem | hmem
  · exact h.full b' hmem
  · rcases List.mem_cons.mp hmem with rfl | hmem
    · omega
    · have := (List.pairwise_cons.mp (List.pairwise_append.mp hsorted).2.1).1 b' hmem
      omega

omit [DecidableEq κ] in
/-- If some branch leads to a bucket with an empty slot, a first one does. -/
theorem FirstFree.exists (rand : Nat → Nat) (hd : 0 < g.maxSearchDepth) {b' : Branch}
    (hb' : b'.Valid g) (hfree : ¬ Full g v (b'.bucket g v idx1 idx2)) :
    ∃ pre b, FirstFree g v idx1 idx2 rand pre b := by
  classical
  have hmem := tree_complete rand hd hb'
  cases hfind : (tree g rand).find? fun b => ¬ Full g v (b.bucket g v idx1 idx2) with
  | none => exact absurd hfree (by simpa using List.find?_eq_none.mp hfind b' hmem)
  | some b =>
    obtain ⟨hp, pre, rest, heq, hall⟩ := List.find?_eq_some_iff_append.mp hfind
    refine ⟨pre, b, ⟨rest, by rw [heq]; simp⟩, fun x hx => ?_, by simpa using hp⟩
    simpa using hall x hx

/-! ## The path of a branch -/

/-- The entries of `Path` along a branch, from `path[0]` on. -/
def hops (g : Scheme κ) (v : View κ) : Bucket → List Nat → List Hop
  | _, [] => []
  | bucket, slot :: slots => ⟨bucket.1, bucket.2, slot⟩ :: hops g v (next g v bucket slot) slots

abbrev Hop.bucket (hop : Hop) : Bucket := (hop.table, hop.index)

omit [DecidableEq κ] in
theorem hops_snoc (slot : Nat) : ∀ (bucket : Bucket) (slots : List Nat),
    hops g v bucket (slots ++ [slot]) =
      hops g v bucket slots ++ [⟨(follow g v bucket slots).1, (follow g v bucket slots).2, slot⟩]
  | _, [] => rfl
  | bucket, s :: slots => by
    have := hops_snoc slot (next g v bucket s) slots
    simpa [hops, follow] using this

omit [DecidableEq κ] in
theorem mem_hops {hop : Hop} : ∀ {bucket : Bucket} (slots : List Nat),
    hop ∈ hops g v bucket slots → ∃ k < slots.length,
      hop.bucket = follow g v bucket (slots.take k) ∧ hop.slot ∈ slots
  | _, [], h => by cases h
  | bucket, s :: slots, h => by
    rcases List.mem_cons.mp h with rfl | h
    · exact ⟨0, by simp, rfl, by simp⟩
    · obtain ⟨k, hk, hb, hs⟩ := mem_hops slots h
      exact ⟨k + 1, by simpa using hk, hb, List.mem_cons_of_mem _ hs⟩

omit [DecidableEq κ] in
theorem follow_append (bucket : Bucket) (slots more : List Nat) :
    follow g v bucket (slots ++ more) = follow g v (follow g v bucket slots) more :=
  List.foldl_append

omit [DecidableEq κ] in
/-- No shorter way to the last bucket: no bucket is met twice. -/
theorem hops_distinct (slot : Nat) : ∀ (bucket : Bucket) (slots : List Nat),
    (∀ s ∈ slots, s < g.width) →
    (∀ slots' : List Nat, (∀ s ∈ slots', s < g.width) → slots'.length < slots.length →
      follow g v bucket slots' ≠ follow g v bucket slots) →
    (hops g v bucket (slots ++ [slot])).Pairwise fun h h' => h.bucket ≠ h'.bucket
  | _, [], _, _ => List.pairwise_singleton _ _
  | bucket, s :: slots, hs, hshort => by
    have hslots : ∀ x ∈ slots, x < g.width := fun x hx => hs x (List.mem_cons_of_mem _ hx)
    refine List.pairwise_cons.mpr ⟨fun h hm he => ?_, hops_distinct slot _ slots hslots ?_⟩
    · -- leaving out the turn back to `bucket` gives a shorter way
      obtain ⟨k, hk, hb, _⟩ := mem_hops (slots ++ [slot]) hm
      rw [List.length_append, List.length_singleton] at hk
      have hk : k ≤ slots.length := by omega
      rw [List.take_append_of_le_length hk] at hb
      have hback : follow g v (next g v bucket s) (slots.take k) = bucket := hb.symm.trans he.symm
      refine hshort (slots.drop k) (fun x hx => hslots x (List.mem_of_mem_drop hx)) ?_ ?_
      · simp only [List.length_drop, List.length_cons]
        omega
      · calc follow g v bucket (slots.drop k)
            = follow g v (next g v bucket s) (slots.take k ++ slots.drop k) := by
              rw [follow_append, hback]
          _ = follow g v bucket (s :: slots) := by rw [List.take_append_drop]; rfl
    · intro slots' hs' hlt he
      refine hshort (s :: slots') (fun x hx => ?_) (by simpa using hlt) he
      rcases List.mem_cons.mp hx with rfl | hx
      · exact hs x (by simp)
      · exact hs' x hx

omit [DecidableEq κ] in
theorem hops_chain : ∀ (bucket : Bucket) (slots : List Nat),
    (hops g v bucket slots).IsChain fun src dst => dst.bucket = next g v src.bucket src.slot
  | _, [] => List.IsChain.nil
  | _, [_] => List.IsChain.singleton _
  | _, _ :: s :: slots => List.isChain_cons_cons.mpr ⟨rfl, hops_chain _ (s :: slots)⟩

/-- Decoding undoes encoding. -/
theorem decodePath_encode {width pathcode : Nat} : ∀ {slots : List Nat},
    (∀ s ∈ slots, s < width) →
    decodePath width slots.length (encode width pathcode slots) = (slots, pathcode) := by
  intro slots
  induction slots using List.reverseRecOn with
  | nil => intro _; rfl
  | append_singleton slots slot ih =>
    intro hs
    have hslot : slot < width := hs slot (by simp)
    have henc : encode width pathcode (slots ++ [slot]) =
        encode width pathcode slots * width + slot := by simp [encode]
    have hdiv : (encode width pathcode slots * width + slot) / width =
        encode width pathcode slots := by
      rw [Nat.mul_comm, Nat.mul_add_div (by omega), Nat.div_eq_of_lt hslot, Nat.add_zero]
    have hmod : (encode width pathcode slots * width + slot) % width = slot := by
      rw [Nat.mul_comm, Nat.mul_add_mod, Nat.mod_eq_of_lt hslot]
    rw [henc, List.length_append, List.length_singleton, decodePath, hdiv, hmod,
      ih fun s h => hs s (by simp [h])]

/-- The re-derivation follows the branch as long as it meets occupied slots. -/
theorem rederive_hops : ∀ (slots : List Nat) (i : Nat) (last : Hop) (above : List Hop),
    (∀ hop ∈ (hops g v last.bucket (last.slot :: slots)).dropLast,
      v hop.table hop.index hop.slot ≠ g.empty) →
    rederive g (fun _ => v) i last above slots =
      (hops g v last.bucket (last.slot :: slots)).reverse ++ above
  | [], i, last, above, _ => by
    unfold rederive
    split <;> rfl
  | slot :: slots, i, last, above, h => by
    unfold rederive
    rw [if_neg (h last (by simp [hops]))]
    dsimp only
    rw [rederive_hops slots (i + 1) _ _ fun hop hm => h hop ?_]
    · simp [hops, next]
    · simp only [hops, List.dropLast_cons_cons] at hm ⊢
      exact List.mem_cons_of_mem _ hm

theorem pathTo_found (idx1 idx2 : Nat) {b : Branch} {slot : Nat} (hb : ∀ s ∈ b.slots, s < g.width)
    (hslot : slot < g.width) (hocc : ∀ hop ∈ hops g v (start idx1 idx2 b.root) b.slots,
      v hop.table hop.index hop.slot ≠ g.empty) :
    pathTo g (fun _ => v) idx1 idx2 (b.found g v idx1 idx2 slot) =
      (hops g v (start idx1 idx2 b.root) (b.slots ++ [slot])).reverse := by
  have hdec : decodePath g.width ((b.found g v idx1 idx2 slot).depth + 1)
      (b.found g v idx1 idx2 slot).pathcode = (b.slots ++ [slot], rootCode b.root) := by
    have hlen : (b.found g v idx1 idx2 slot).depth + 1 = (b.slots ++ [slot]).length := by
      simp [Branch.found, Branch.point]
    rw [hlen]
    apply decodePath_encode
    intro s hs
    rcases List.mem_append.mp hs with hs | hs
    · exact hb s hs
    · rwa [List.mem_singleton.mp hs]
  unfold pathTo
  rw [hdec]
  obtain ⟨s, slots, hcons⟩ := List.exists_cons_of_ne_nil
    (List.append_ne_nil_of_right_ne_nil b.slots (List.cons_ne_nil slot []))
  have hfirst : (if rootCode b.root = 0 then (⟨.one, idx1, s⟩ : Hop) else ⟨.two, idx2, s⟩) =
      ⟨(start idx1 idx2 b.root).1, (start idx1 idx2 b.root).2, s⟩ := by
    cases b.root <;> rfl
  have hdrop : (hops g v (start idx1 idx2 b.root) (s :: slots)).dropLast =
      hops g v (start idx1 idx2 b.root) b.slots := by
    rw [← hcons, hops_snoc, List.dropLast_concat]
  rw [hcons]
  dsimp only
  rw [hfirst, rederive_hops, List.append_nil]
  intro hop hm
  exact hocc hop (hdrop ▸ hm)

/-- What the displacement loop relies on in a table nobody else writes: `path` lists
the hops from an empty slot back to the start, each bucket being the other one of the
key in the entry before it, and no bucket comes twice. -/
structure Route (g : Scheme κ) (v : View κ) (path : List Hop) : Prop where
  chain : path.IsChain fun dst src => dst.bucket = next g v src.bucket src.slot
  distinct : path.Pairwise fun h h' => h.bucket ≠ h'.bucket
  free : ∀ hop rest, path = hop :: rest → v hop.table hop.index hop.slot = g.empty
  occupied : ∀ hop rest, path = hop :: rest → ∀ src ∈ rest,
    v src.table src.index src.slot ≠ g.empty

omit [DecidableEq κ] in
/-- A displacement empties the next slot and touches no other bucket of the route. -/
theorem Route.advance {v' : View κ} {dst src : Hop} {path : List Hop}
    (h : Route g v (dst :: src :: path))
    (hsrc : v' src.table src.index src.slot = g.empty)
    (hkeep : ∀ hop : Hop, hop.bucket ≠ dst.bucket → hop.bucket ≠ src.bucket →
      v' hop.table hop.index hop.slot = v hop.table hop.index hop.slot) :
    Route g v' (src :: path) := by
  obtain ⟨hdst, htail⟩ := List.pairwise_cons.mp h.distinct
  have hsame : ∀ hop ∈ path,
      v' hop.table hop.index hop.slot = v hop.table hop.index hop.slot := fun hop hm =>
    hkeep hop (hdst hop (List.mem_cons_of_mem _ hm)).symm
      ((List.pairwise_cons.mp htail).1 hop hm).symm
  refine ⟨?_, htail, ?_, ?_⟩
  · refine h.chain.tail.imp_of_mem_tail_imp fun x y _ hy hxy => ?_
    rw [hxy]
    simp only [next, hsame y hy]
  · intro hop rest he
    cases he
    exact hsrc
  · intro hop rest he y hy
    cases he
    rw [hsame y hy]
    exact h.occupied dst (src :: path) rfl y (List.mem_cons_of_mem _ hy)

omit [DecidableEq κ] in
/-- The slots along the first branch to a bucket with an empty slot are occupied. -/
theorem FirstFree.occupied {rand : Nat → Nat} {pre : List Branch} {b : Branch}
    (hd : 0 < g.maxSearchDepth) (h : FirstFree g v idx1 idx2 rand pre b) :
    ∀ hop ∈ hops g v (start idx1 idx2 b.root) b.slots,
      v hop.table hop.index hop.slot ≠ g.empty := by
  intro hop hm
  have hb := h.valid hd
  obtain ⟨k, hk, hbucket, hslot⟩ := mem_hops b.slots hm
  have hvalid : Branch.Valid g ⟨b.root, b.slots.take k⟩ := by
    refine ⟨fun s hs => hb.slots s (List.mem_of_mem_take hs), ?_⟩
    have := hb.short
    simp only [List.length_take]
    omega
  have hfull := h.shortest hd hvalid (by simp only [List.length_take]; omega)
  have := hfull hop.slot (hb.slots _ hslot)
  rwa [show Branch.bucket g v idx1 idx2 ⟨b.root, b.slots.take k⟩ = hop.bucket from
    hbucket.symm] at this

omit [DecidableEq κ] in
/-- The path of the first branch to a bucket with an empty slot. -/
theorem FirstFree.route {rand : Nat → Nat} {pre : List Branch} {b : Branch} {slot : Nat}
    (hd : 0 < g.maxSearchDepth) (h : FirstFree g v idx1 idx2 rand pre b)
    (hfree : v (b.bucket g v idx1 idx2).1 (b.bucket g v idx1 idx2).2 slot = g.empty) :
    Route g v (hops g v (start idx1 idx2 b.root) (b.slots ++ [slot])).reverse := by
  have hb := h.valid hd
  refine ⟨?_, ?_, ?_, ?_⟩
  · rw [List.isChain_reverse]
    exact hops_chain _ _
  · rw [List.pairwise_reverse]
    refine (hops_distinct slot _ b.slots hb.slots fun slots' hs' hlt he => ?_).imp
      fun hne => hne.symm
    have hvalid : Branch.Valid g ⟨b.root, slots'⟩ := ⟨hs', by have := hb.short; simp only; omega⟩
    have hfull := h.shortest hd hvalid hlt
    rw [show Branch.bucket g v idx1 idx2 ⟨b.root, slots'⟩ = b.bucket g v idx1 idx2 from he]
      at hfull
    exact h.free hfull
  · intro hop rest heq
    rw [hops_snoc, List.reverse_append, List.reverse_singleton, List.singleton_append] at heq
    cases heq
    exact hfree
  · intro hop rest heq src hm
    rw [hops_snoc, List.reverse_append, List.reverse_singleton, List.singleton_append] at heq
    cases heq
    exact h.occupied hd src (List.mem_reverse.mp hm)

/-- What `search` and the path computation make of a still table. -/
theorem findPath_some {rand : Nat → Nat} {path : List Hop} (hd : 0 < g.maxSearchDepth)
    (h : findPath g (.still v) rand idx1 idx2 = some path) :
    ∃ pre b slot, FirstFree g v idx1 idx2 rand pre b ∧
      ((pre ++ [b]).map (Branch.incoming g v idx1 idx2)).Nodup ∧
      path = (hops g v (start idx1 idx2 b.root) (b.slots ++ [slot])).reverse ∧
      Route g v path := by
  obtain ⟨point, hs, rfl⟩ := Option.map_eq_some_iff.mp h
  obtain ⟨pre, b, slot, hb, hslot, rfl, hnd⟩ := search_some hs
  have hpath := pathTo_found idx1 idx2 (hb.valid hd).slots hslot.1
    (hb.occupied hd)
  refine ⟨pre, b, slot, hb, hnd, hpath, ?_⟩
  have hroute := hb.route hd hslot.2
  rw [← hpath] at hroute
  exact hroute

end ConcurrentComputing.CuckooPath
