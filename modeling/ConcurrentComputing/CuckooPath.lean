import Mathlib.Algebra.GroupWithZero.Nat
import Mathlib.Data.List.Chain
import Mathlib.Data.Fintype.Basic

/-! # The unlocked half of a cuckoo insert

`search`, `nextPoint`, the pathcode decoding and the re-derivation of the path
are the same text in `CuckooHash/Cuckoo.hpp`, `CuckooHash/TMCuckoo.hpp` and the
server's `Persistence/KeyValueStore/Cuckoo.hpp`, up to the bucket width, the depth
limit and what a slot holds; those are the fields of a `Scheme`. None of it runs
under a bucket lock, so each read takes a view of the tables of its own. -/

namespace ConcurrentComputing.CuckooPath

/-- The numbers 1 and 2, which name a table in `Point`, `Path` and `Result` and
a hash function in `hash`. -/
inductive Side where
  | one | two
  deriving DecidableEq, Repr

instance : Fintype Side := ⟨{.one, .two}, fun s => by cases s <;> decide⟩

def Side.other : Side → Side
  | .one => .two
  | .two => .one

@[simp] theorem Side.other_other (s : Side) : s.other.other = s := by cases s <;> rfl

/-- What the shared code takes from the class it is part of: `WIDTH`,
`MAX_SEARCH_DEPTH`, `EMPTY` and `hash` under the current bucket count. -/
structure Scheme (κ : Type) where
  width : Nat
  maxSearchDepth : Nat
  empty : κ
  hash : κ → Side → Nat

/-- The key a read of (table, index, slot) returns. -/
abbrev View (κ : Type) := Side → Nat → Nat → κ

/-- The view of each unlocked read: those of `search` by queue round and number
within the round, those of the path computation by number. -/
structure Reads (κ : Type) where
  search : Nat → Nat → View κ
  path : Nat → View κ

/-- All reads see one and the same table: no other thread is running. -/
def Reads.still {κ : Type} (v : View κ) : Reads κ := ⟨fun _ _ => v, fun _ => v⟩

structure Point where
  table : Side
  index : Nat
  pathcode : Nat
  depth : Nat
  deriving DecidableEq, Repr

variable {κ : Type} [DecidableEq κ] (g : Scheme κ)

def nextPoint (v : View κ) (point : Point) (slot : Nat) : Point where
  table := point.table.other
  index := g.hash (v point.table point.index slot) point.table.other
  pathcode := point.pathcode * g.width + slot
  depth := point.depth + 1

/-- What the slot loop of `search` ends with: a point with an empty slot, or the
points to push on the queue. -/
inductive Scan where
  | found (point : Point)
  | pushed (points : List Point)

/-- The slot loop of `search` with `todo` slots to go. -/
def scan (views : Nat → View κ) (point : Point) (startSlot : Nat) : Nat → List Point → Scan
  | 0, pushed => .pushed pushed
  | todo + 1, pushed =>
    let i := g.width - (todo + 1)
    let slot := (startSlot + i) % g.width
    if views (1 + 2 * i) point.table point.index slot = g.empty then
      .found { point with pathcode := point.pathcode * g.width + slot }
    else if point.depth < g.maxSearchDepth - 1 then
      scan views point startSlot todo (pushed ++ [nextPoint g (views (2 + 2 * i)) point slot])
    else scan views point startSlot todo pushed

/-- The queue loop of `search`. `none` is the failure point `(-1, -1, -1, -1)`. -/
def searchLoop (views : Nat → Nat → View κ) (rand : Nat → Nat) :
    Nat → Nat → List Point → List κ → Option Point
  | 0, _, _, _ => none
  | _ + 1, _, [], _ => none
  | fuel + 1, n, point :: q, paths =>
    let val := views n 0 point.table point.index (point.pathcode % g.width)
    if val ∈ paths then none
    else match scan g (views n) point (rand n % g.width) g.width [] with
      | .found p => some p
      | .pushed ps => searchLoop views rand fuel (n + 1) (q ++ ps) (val :: paths)

/-- The points of a full search tree below a point of the given depth, itself
included. -/
def treeSize (width : Nat) : Nat → Nat
  | 0 => 0
  | levels + 1 => 1 + width * treeSize width levels

/-- `search`. The queue takes at most two full trees of points, so the bound on
the rounds is never reached (`searchLoop_bound`). -/
def search (views : Nat → Nat → View κ) (rand : Nat → Nat) (idx1 idx2 : Nat) : Option Point :=
  searchLoop g views rand (2 * treeSize g.width g.maxSearchDepth + 1) 0
    [⟨.one, idx1, 0, 0⟩, ⟨.two, idx2, 1, 0⟩] []

/-- One entry of the three arrays of `Path`. -/
structure Hop where
  table : Side
  index : Nat
  slot : Nat
  deriving DecidableEq, Repr

/-- The decoding loop: the slots of a pathcode, outermost first, and what is left
of the code. -/
def decodePath (width : Nat) : Nat → Nat → List Nat × Nat
  | 0, pathcode => ([], pathcode)
  | n + 1, pathcode =>
    let (slots, rest) := decodePath width n (pathcode / width)
    (slots ++ [pathcode % width], rest)

/-- The loop that re-derives `path.index` and `path.table` and stops at the first
slot it reads as available. The path is listed from its deepest entry
`path[depth]` back to `path[0]`. -/
def rederive (views : Nat → View κ) : Nat → Hop → List Hop → List Nat → List Hop
  | i, last, above, slots =>
    if views (2 * i) last.table last.index last.slot = g.empty then last :: above
    else match slots with
      | [] => last :: above
      | slot :: slots =>
        let key := views (2 * i + 1) last.table last.index last.slot
        rederive views (i + 1) ⟨last.table.other, g.hash key last.table.other, slot⟩
          (last :: above) slots

def pathTo (views : Nat → View κ) (idx1 idx2 : Nat) (point : Point) : List Hop :=
  match decodePath g.width (point.depth + 1) point.pathcode with
  | ([], _) => []
  | (slot :: slots, pathcode) =>
    rederive g views 0 (if pathcode = 0 then ⟨.one, idx1, slot⟩ else ⟨.two, idx2, slot⟩) [] slots

/-- `search` followed by the path computation; `none` when the search fails. -/
def findPath (reads : Reads κ) (rand : Nat → Nat) (idx1 idx2 : Nat) : Option (List Hop) :=
  (search g reads.search rand idx1 idx2).map (pathTo g reads.path idx1 idx2)

/-! ## The search tree is finite -/

variable {g}

theorem scan_pushed {views : Nat → View κ} {point : Point} {start : Nat} :
    ∀ {todo : Nat} {pushed ps : List Point}, scan g views point start todo pushed = .pushed ps →
      ∃ more, ps = pushed ++ more ∧ more.length ≤ todo ∧
        ∀ p ∈ more, p.depth = point.depth + 1 ∧ point.depth < g.maxSearchDepth - 1
  | 0, pushed, ps, h => by
    simp only [scan, Scan.pushed.injEq] at h
    exact ⟨[], by simp [h], by simp, by simp⟩
  | todo + 1, pushed, ps, h => by
    simp only [scan] at h
    split at h
    · cases h
    split at h
    · rename_i hdepth
      obtain ⟨more, rfl, hlen, hmore⟩ := scan_pushed h
      refine ⟨_ :: more, by rw [List.append_assoc]; rfl, by simpa using hlen, ?_⟩
      intro p hp
      rcases List.mem_cons.mp hp with rfl | hp
      · exact ⟨rfl, hdepth⟩
      · exact hmore p hp
    · obtain ⟨more, rfl, hlen, hmore⟩ := scan_pushed h
      exact ⟨more, rfl, by omega, hmore⟩

/-- The rounds a queue can still give rise to. -/
def queueWeight (g : Scheme κ) (q : List Point) : Nat :=
  (q.map fun p => treeSize g.width (g.maxSearchDepth - p.depth)).sum

omit [DecidableEq κ] in
theorem queueWeight_level {ps : List Point} {d n : Nat} (hlen : ps.length ≤ n)
    (hd : ∀ p ∈ ps, p.depth = d) :
    queueWeight g ps ≤ n * treeSize g.width (g.maxSearchDepth - d) := by
  have h : queueWeight g ps = ps.length * treeSize g.width (g.maxSearchDepth - d) := by
    unfold queueWeight
    rw [List.map_congr_left (fun p hp => by rw [hd p hp]), List.map_const',
      List.sum_replicate_nat]
  rw [h]
  exact Nat.mul_le_mul_right _ hlen

/-- Once the rounds allowed exceed what the queue can give rise to, allowing more
changes nothing: `search` fails only by its own two rules. -/
theorem searchLoop_bound {views : Nat → Nat → View κ} {rand : Nat → Nat} (extra : Nat) :
    ∀ {fuel n : Nat} {q : List Point} {paths : List κ},
      (∀ p ∈ q, p.depth < g.maxSearchDepth) → queueWeight g q < fuel →
      searchLoop g views rand (fuel + extra) n q paths = searchLoop g views rand fuel n q paths := by
  intro fuel
  induction fuel with
  | zero => intro n q paths _ h; omega
  | succ fuel ih =>
    intro n q paths hq hw
    rw [Nat.add_right_comm]
    cases q with
    | nil => rfl
    | cons point q =>
      simp only [searchLoop]
      split
      · rfl
      cases hs : scan g (views n) point (rand n % g.width) g.width [] with
      | found p => rfl
      | pushed ps =>
        obtain ⟨more, hps, hlen, hmore⟩ := scan_pushed hs
        rw [List.nil_append] at hps
        subst hps
        have hd : point.depth < g.maxSearchDepth := hq point (by simp)
        have htree : treeSize g.width (g.maxSearchDepth - point.depth) =
            1 + g.width * treeSize g.width (g.maxSearchDepth - (point.depth + 1)) := by
          rw [show g.maxSearchDepth - point.depth =
            g.maxSearchDepth - (point.depth + 1) + 1 by omega]
          rfl
        have hlevel := queueWeight_level (g := g) hlen (fun p hp => (hmore p hp).1)
        have happ : queueWeight g (q ++ ps) = queueWeight g q + queueWeight g ps := by
          simp [queueWeight]
        have hcons : queueWeight g (point :: q) =
            treeSize g.width (g.maxSearchDepth - point.depth) + queueWeight g q := by
          simp [queueWeight]
        apply ih
        · intro p hp
          rcases List.mem_append.mp hp with hp | hp
          · exact hq p (by simp [hp])
          · have := hmore p hp; omega
        · omega

theorem search_bound {views : Nat → Nat → View κ} {rand : Nat → Nat} {idx1 idx2 : Nat}
    (hd : 0 < g.maxSearchDepth) (extra : Nat) :
    searchLoop g views rand (2 * treeSize g.width g.maxSearchDepth + 1 + extra) 0
      [⟨.one, idx1, 0, 0⟩, ⟨.two, idx2, 1, 0⟩] [] = search g views rand idx1 idx2 := by
  apply searchLoop_bound
  · intro p hp
    simp only [List.mem_cons, List.not_mem_nil, or_false] at hp
    rcases hp with rfl | rfl <;> exact hd
  · simp [queueWeight]; omega

/-! ## The shape of a path -/

/-- A displacement path as the code uses it: every entry inside the tables, the
sides alternating, and `path[0]` in one of the two buckets of the value. -/
structure GoodPath (g : Scheme κ) (buckets idx1 idx2 : Nat) (path : List Hop) : Prop where
  bounds : ∀ h ∈ path, h.index < buckets ∧ h.slot < g.width
  alternate : path.IsChain fun dst src => dst.table = src.table.other
  start : ∃ h, path.getLast? = some h ∧
    ((h.table = .one ∧ h.index = idx1) ∨ (h.table = .two ∧ h.index = idx2))

omit [DecidableEq κ] in
theorem GoodPath.tail {buckets idx1 idx2 : Nat} {dst src : Hop} {path : List Hop}
    (h : GoodPath g buckets idx1 idx2 (dst :: src :: path)) :
    GoodPath g buckets idx1 idx2 (src :: path) where
  bounds := fun x hx => h.bounds x (List.mem_cons_of_mem _ hx)
  alternate := h.alternate.tail
  start := by simpa [List.getLast?_cons_cons] using h.start

omit [DecidableEq κ] in
/-- The last entry is in one of the two buckets. -/
theorem GoodPath.last {buckets idx1 idx2 : Nat} {path : List Hop} {hop : Hop}
    (h : GoodPath g buckets idx1 idx2 path) (hl : path.getLast? = some hop) :
    (hop.table = .one ∧ hop.index = idx1) ∨ (hop.table = .two ∧ hop.index = idx2) := by
  obtain ⟨x, hx, hb⟩ := h.start
  rw [hl] at hx
  cases hx
  exact hb

theorem decodePath_spec {width : Nat} (hw : 0 < width) : ∀ (n pathcode : Nat),
    (decodePath width n pathcode).1.length = n ∧
      ∀ s ∈ (decodePath width n pathcode).1, s < width
  | 0, _ => by simp [decodePath]
  | n + 1, pathcode => by
    obtain ⟨hlen, hs⟩ := decodePath_spec hw n (pathcode / width)
    simp only [decodePath, List.length_append, hlen, List.length_singleton, true_and]
    intro s hmem
    rcases List.mem_append.mp hmem with hmem | hmem
    · exact hs s hmem
    · rw [List.mem_singleton.mp hmem]
      exact Nat.mod_lt _ hw

theorem rederive_good {views : Nat → View κ} {buckets idx1 idx2 : Nat}
    (hhash : ∀ k s, g.hash k s < buckets) : ∀ (slots : List Nat) (i : Nat) (last : Hop)
      (above : List Hop), (∀ s ∈ slots, s < g.width) →
      GoodPath g buckets idx1 idx2 (last :: above) →
      GoodPath g buckets idx1 idx2 (rederive g views i last above slots)
  | [], i, last, above, _, h => by
    unfold rederive
    split <;> exact h
  | slot :: slots, i, last, above, hs, h => by
    unfold rederive
    split
    · exact h
    · apply rederive_good hhash slots (i + 1) _ _ (fun s hm => hs s (by simp [hm]))
      refine ⟨?_, ?_, ?_⟩
      · intro x hx
        rcases List.mem_cons.mp hx with rfl | hx
        · exact ⟨hhash _ _, hs slot (by simp)⟩
        · exact h.bounds x hx
      · exact List.isChain_cons_cons.mpr ⟨rfl, h.alternate⟩
      · simpa [List.getLast?_cons_cons] using h.start

/-- Whatever the unlocked reads returned, the path that comes out of them has
the shape the displacement loop relies on. -/
theorem findPath_good {reads : Reads κ} {rand : Nat → Nat} {buckets idx1 idx2 : Nat}
    {path : List Hop} (hw : 0 < g.width) (hhash : ∀ k s, g.hash k s < buckets)
    (h1 : idx1 < buckets) (h2 : idx2 < buckets)
    (h : findPath g reads rand idx1 idx2 = some path) : GoodPath g buckets idx1 idx2 path := by
  obtain ⟨point, _, rfl⟩ := Option.map_eq_some_iff.mp h
  obtain ⟨hlen, hslots⟩ := decodePath_spec hw (point.depth + 1) point.pathcode
  unfold pathTo
  split
  · rename_i heq
    rw [heq] at hlen
    simp at hlen
  · rename_i slot slots pathcode heq
    rw [heq] at hslots
    apply rederive_good hhash _ _ _ _ (fun s hs => hslots s (by simp [hs]))
    have hslot := hslots slot (by simp)
    split
    · exact ⟨by simp [h1, hslot], by simp, _, rfl, Or.inl ⟨rfl, rfl⟩⟩
    · exact ⟨by simp [h2, hslot], by simp, _, rfl, Or.inr ⟨rfl, rfl⟩⟩

/-! ## What a path is made from -/

theorem scan_congr {views views' : Nat → View κ} {point : Point} {start : Nat} (hw : 0 < g.width)
    (h : ∀ i side, ∀ slot < g.width,
      views i side point.index slot = views' i side point.index slot) :
    ∀ (todo : Nat) (pushed : List Point),
      scan g views point start todo pushed = scan g views' point start todo pushed := by
  intro todo
  induction todo with
  | zero => exact fun _ => rfl
  | succ todo ih =>
    intro pushed
    have hslot := Nat.mod_lt (start + (g.width - (todo + 1))) hw
    simp only [scan, nextPoint, h _ _ _ hslot, ih]

/-- The points pushed are in the tables. -/
theorem scan_index {views : Nat → View κ} {buckets : Nat} {point : Point} {start : Nat}
    (hhash : ∀ k s, g.hash k s < buckets) :
    ∀ {todo : Nat} {pushed ps : List Point}, scan g views point start todo pushed = .pushed ps →
      (∀ p ∈ pushed, p.index < buckets) → ∀ p ∈ ps, p.index < buckets := by
  intro todo
  induction todo with
  | zero =>
    intro pushed ps h hp
    cases h
    exact hp
  | succ todo ih =>
    intro pushed ps h hp
    simp only [scan] at h
    split at h
    · cases h
    split at h
    · refine ih h fun p hmem => ?_
      rcases List.mem_append.mp hmem with hmem | hmem
      · exact hp p hmem
      · rw [List.mem_singleton.mp hmem]
        exact hhash _ _
    · exact ih h hp

theorem searchLoop_congr {views views' : Nat → Nat → View κ} {rand : Nat → Nat} {buckets : Nat}
    (hw : 0 < g.width) (hhash : ∀ k s, g.hash k s < buckets)
    (h : ∀ n i side, ∀ idx < buckets, ∀ slot < g.width,
      views n i side idx slot = views' n i side idx slot) :
    ∀ (fuel n : Nat) (q : List Point) (paths : List κ), (∀ p ∈ q, p.index < buckets) →
      searchLoop g views rand fuel n q paths = searchLoop g views' rand fuel n q paths := by
  intro fuel
  induction fuel with
  | zero => exact fun _ _ _ _ => rfl
  | succ fuel ih =>
    intro n q paths hq
    cases q with
    | nil => rfl
    | cons point q =>
      have hpoint := hq point List.mem_cons_self
      have hscan : scan g (views n) point (rand n % g.width) g.width [] =
          scan g (views' n) point (rand n % g.width) g.width [] :=
        scan_congr hw (fun i side slot hs => h n i side _ hpoint slot hs) g.width []
      simp only [searchLoop, h n 0 _ _ hpoint _ (Nat.mod_lt _ hw), hscan]
      split
      · rfl
      cases hs : scan g (views' n) point (rand n % g.width) g.width [] with
      | found p => rfl
      | pushed ps =>
        refine ih _ _ _ fun p hp => ?_
        rcases List.mem_append.mp hp with hp | hp
        · exact hq p (List.mem_cons_of_mem _ hp)
        · exact scan_index hhash hs (by simp) p hp

theorem rederive_congr {views views' : Nat → View κ} {buckets : Nat}
    (hhash : ∀ k s, g.hash k s < buckets)
    (h : ∀ i side, ∀ idx < buckets, ∀ slot < g.width,
      views i side idx slot = views' i side idx slot) :
    ∀ (slots : List Nat) (i : Nat) (last : Hop) (above : List Hop), (∀ s ∈ slots, s < g.width) →
      last.index < buckets → last.slot < g.width →
      rederive g views i last above slots = rederive g views' i last above slots := by
  intro slots
  induction slots with
  | nil =>
    intro i last above _ hi hs
    simp only [rederive, h _ _ _ hi _ hs]
  | cons slot slots ih =>
    intro i last above hslots hi hs
    simp only [rederive, h _ _ _ hi _ hs]
    rw [ih _ _ _ (fun s hm => hslots s (List.mem_cons_of_mem _ hm)) (hhash _ _)
      (hslots slot List.mem_cons_self)]

/-- A path depends on nothing that lies outside of the tables. -/
theorem findPath_congr {reads reads' : Reads κ} {rand : Nat → Nat} {buckets idx1 idx2 : Nat}
    (hw : 0 < g.width) (hhash : ∀ k s, g.hash k s < buckets) (h1 : idx1 < buckets)
    (h2 : idx2 < buckets)
    (hsearch : ∀ n i side, ∀ idx < buckets, ∀ slot < g.width,
      reads.search n i side idx slot = reads'.search n i side idx slot)
    (hpath : ∀ i side, ∀ idx < buckets, ∀ slot < g.width,
      reads.path i side idx slot = reads'.path i side idx slot) :
    findPath g reads rand idx1 idx2 = findPath g reads' rand idx1 idx2 := by
  have hroots : ∀ p ∈ [(⟨.one, idx1, 0, 0⟩ : Point), ⟨.two, idx2, 1, 0⟩], p.index < buckets := by
    simp [h1, h2]
  unfold findPath search
  rw [searchLoop_congr hw hhash hsearch _ _ _ _ hroots]
  refine Option.map_congr fun point _ => ?_
  have hslots := (decodePath_spec hw (point.depth + 1) point.pathcode).2
  unfold pathTo
  cases hcode : decodePath g.width (point.depth + 1) point.pathcode with
  | mk slots pathcode =>
    rw [hcode] at hslots
    cases slots with
    | nil => rfl
    | cons slot slots =>
      refine rederive_congr hhash hpath _ _ _ _
        (fun s hm => hslots s (List.mem_cons_of_mem _ hm)) ?_ ?_
      · split <;> assumption
      · have hslot := hslots slot List.mem_cons_self
        split <;> exact hslot

end ConcurrentComputing.CuckooPath
