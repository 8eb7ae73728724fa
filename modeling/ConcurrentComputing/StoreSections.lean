import ConcurrentComputing.Store

/-! # What each section of the store does

In terms of the cells of the table: the sections of an insert move nodes between
their two buckets, and its last write adds a node, replaces the one with its key,
or, for a node without a key, changes nothing. -/

namespace ConcurrentComputing.Store.Cuckoo

open CuckooPath Placement

variable {c c' : Cuckoo} {key : Word} {idx1 idx2 : Nat}

/-- Neither of the two buckets has the key. -/
def Missing (c : Cuckoo) (key : Word) (idx1 idx2 : Nat) : Prop :=
  ∀ i < entryWidth, (c.table.getElement idx1 i).key ≠ key ∧ (c.table.getElement idx2 i).key ≠ key

/-- The first check finds the key, or a free slot of one of the two buckets, or
both full. -/
theorem firstCheck_spec (c : Cuckoo) (key : Word) (idx1 idx2 : Nat) :
    (∃ side idx slot, c.firstCheck key idx1 idx2 = some (.duplicate side idx slot) ∧
      Bucket idx1 idx2 idx ∧ slot < entryWidth ∧ (c.table.getElement idx slot).key = key) ∨
    (∃ side idx slot, c.firstCheck key idx1 idx2 = some (.success side idx slot) ∧
      c.Missing key idx1 idx2 ∧ Bucket idx1 idx2 idx ∧ slot < entryWidth ∧
      (c.table.getElement idx slot).key = 0) ∨
    (c.firstCheck key idx1 idx2 = none ∧ c.Missing key idx1 idx2 ∧
      ∀ i < entryWidth, (c.table.getElement idx1 i).key ≠ 0 ∧
        (c.table.getElement idx2 i).key ≠ 0) := by
  unfold firstCheck
  cases h1 : c.table.findSlot key idx1 with
  | some slot =>
    obtain ⟨hs, hk⟩ := Table.findSlot_some h1
    exact Or.inl ⟨_, _, _, rfl, Or.inl rfl, hs, hk⟩
  | none =>
    cases h2 : c.table.findSlot key idx2 with
    | some slot =>
      obtain ⟨hs, hk⟩ := Table.findSlot_some h2
      exact Or.inl ⟨_, _, _, rfl, Or.inr rfl, hs, hk⟩
    | none =>
      have hm : c.Missing key idx1 idx2 := fun i hi =>
        ⟨Table.findSlot_none h1 i hi, Table.findSlot_none h2 i hi⟩
      right
      cases h3 : c.table.isAvailable idx1 with
      | some slot =>
        obtain ⟨hs, h0⟩ := Table.isAvailable_some h3
        exact Or.inl ⟨_, _, _, rfl, hm, Or.inl rfl, hs, h0⟩
      | none =>
        cases h4 : c.table.isAvailable idx2 with
        | some slot =>
          obtain ⟨hs, h0⟩ := Table.isAvailable_some h4
          exact Or.inl ⟨_, _, _, rfl, hm, Or.inr rfl, hs, h0⟩
        | none =>
          exact Or.inr ⟨rfl, hm, fun i hi =>
            ⟨Table.isAvailable_none h3 i hi, Table.isAvailable_none h4 i hi⟩⟩

/-- In a well-placed table a key missing from its two buckets is stored nowhere. -/
theorem WellPlaced.not_stored (hc : c.WellPlaced)
    (hm : c.Missing key (hash c.buckets key .one) (hash c.buckets key .two)) :
    ∀ a ∈ stored c.content, a.key ≠ key := by
  intro a ⟨⟨idx, slot⟩, h⟩ hk
  obtain ⟨hi, hs⟩ := hc.placed _ _ h
  obtain ⟨_, _, he, _⟩ := content_eq_some.mp h
  dsimp only at hi hs
  rw [hk] at hi
  have hkey : (c.table.getElement idx slot).key = key := by rw [he, hk]
  rcases hi with rfl | rfl
  · exact (hm slot hs).1 hkey
  · exact (hm slot hs).2 hkey

/-! ## Displacements -/

/-- A displacement that passes its validations moves one node to an empty slot of
its second bucket. -/
theorem displace_spec {dst src : Hop} (hd : dst.index < c.buckets ∧ dst.slot < entryWidth)
    (hs : src.index < c.buckets ∧ src.slot < entryWidth) (h : c.displace dst src = some c') :
    c'.buckets = c.buckets ∧ ∃ a, c.content (src.index, src.slot) = some a ∧
      c.content (dst.index, dst.slot) = none ∧ home c.buckets a (dst.index, dst.slot) ∧
      c'.content = move c.content (dst.index, dst.slot) (src.index, src.slot) := by
  simp only [displace, Option.ite_none_left_eq_some, Bool.or_eq_true, not_or,
    Bool.not_eq_true, Bool.not_eq_eq_eq_not, Bool.not_true, bne_eq_false_iff_eq,
    Table.isOccupied_iff, Table.isOccupied_eq_false, not_not, Option.some.injEq] at h
  obtain ⟨⟨⟨hdst, hsrc⟩, hhash⟩, rfl⟩ := h
  have hsome : c.content (src.index, src.slot) = some (c.table.getElement src.index src.slot) :=
    content_eq_some.mpr ⟨hs.1, hs.2, rfl, hsrc⟩
  refine ⟨rfl, _, hsome, (content_eq_none hd.1 hd.2).mpr hdst, ⟨Or.inr hhash.symm, hd.2⟩, ?_⟩
  have hset := content_setElement (c.table.getElement src.index src.slot) hd.1 hd.2
  rw [if_neg hsrc] at hset
  have hkey := content_setKey (c := ⟨c.buckets, c.table.setElement dst.index dst.slot
    (c.table.getElement src.index src.slot)⟩) hs.1 hs.2
  dsimp only at hkey
  rw [hkey, hset, move, hsome]

theorem displace_vacates {dst src : Hop} (hd : dst.index < c.buckets ∧ dst.slot < entryWidth)
    (hs : src.index < c.buckets ∧ src.slot < entryWidth) (h : c.displace dst src = some c') :
    (c'.table.getElement src.index src.slot).key = 0 := by
  obtain ⟨hb, _, _, _, _, hm⟩ := displace_spec hd hs h
  have hmem : c'.content (src.index, src.slot) = none := by
    rw [hm]
    simp [move]
  exact (content_eq_none (by rw [hb]; exact hs.1) hs.2).mp hmem

/-- The displacement loop only ever moves nodes between their homes; when it
succeeds, the slot of `path[0]` is empty. -/
theorem displaceAll_spec : ∀ (path : List Hop) (c : Cuckoo),
    GoodPath c.scheme c.buckets idx1 idx2 path →
    (∀ hop, path = [hop] → (c.table.getElement hop.index hop.slot).key = 0) →
    ∀ {r : InsertResult} {c' : Cuckoo}, c.displaceAll path = (r, c') →
    c'.buckets = c.buckets ∧ Moves (home c.buckets) c.content c'.content ∧
      (r = .retry ∨ ∃ side idx slot, r = .success side idx slot ∧ Bucket idx1 idx2 idx ∧
        slot < entryWidth ∧ (c'.table.getElement idx slot).key = 0)
  | [], c, _, _, r, c', h => by
    cases h
    exact ⟨rfl, .refl _, Or.inl rfl⟩
  | [hop], c, hg, h0, r, c', h => by
    cases h
    have hb := hg.last rfl
    exact ⟨rfl, .refl _, Or.inr ⟨_, _, _, rfl, hb.imp And.right And.right,
      (hg.bounds hop (by simp)).2, h0 hop rfl⟩⟩
  | dst :: src :: path, c, hg, _, r, c', h => by
    simp only [displaceAll] at h
    cases hd : c.displace dst src with
    | none =>
      rw [hd] at h
      cases h
      exact ⟨rfl, .refl _, Or.inl rfl⟩
    | some d =>
      rw [hd] at h
      have hdst := hg.bounds dst (by simp)
      have hsrc := hg.bounds src (by simp)
      obtain ⟨hb, a, hs, hn, hh, hm⟩ := displace_spec hdst hsrc hd
      -- the slot just vacated is the one the next round fills, or the result
      have hzero := displace_vacates hdst hsrc hd
      have hg' : GoodPath d.scheme d.buckets idx1 idx2 (src :: path) := by
        rw [hb, show d.scheme = c.scheme by simp [scheme, hb]]
        exact hg.tail
      obtain ⟨hb', hmoves, hr⟩ := displaceAll_spec (src :: path) d hg'
        (fun hop he => by cases he; exact hzero) h
      refine ⟨hb'.trans hb, ?_, hr⟩
      rw [hb] at hmoves
      exact Moves.head hs hn hh (hm ▸ hmoves)

/-! ## The private insert -/

/-- Whatever a private insert answers, nodes have only been moved between their
homes; a duplicate names a slot with the key, a success an empty slot of one of
the two buckets. -/
theorem insertAt_spec {rand : Nat → Nat} {r : InsertResult} (hpos : 0 < c.buckets)
    (h1 : idx1 < c.buckets) (h2 : idx2 < c.buckets)
    (h : c.insertAt key idx1 idx2 rand = (r, c')) :
    c'.buckets = c.buckets ∧ Moves (home c.buckets) c.content c'.content ∧
      ((∃ side idx slot, r = .duplicate side idx slot ∧ c' = c ∧ Bucket idx1 idx2 idx ∧
          slot < entryWidth ∧ (c.table.getElement idx slot).key = key) ∨
        (r = .resize ∧ c.Missing key idx1 idx2) ∨
        (r = .retry ∧ c.Missing key idx1 idx2) ∨
        ∃ side idx slot, r = .success side idx slot ∧ c.Missing key idx1 idx2 ∧
          Bucket idx1 idx2 idx ∧ slot < entryWidth ∧ (c'.table.getElement idx slot).key = 0) := by
  unfold insertAt at h
  rcases firstCheck_spec c key idx1 idx2 with ⟨side, idx, slot, hf, hb, hs, hk⟩ |
    ⟨side, idx, slot, hf, hm, hb, hs, h0⟩ | ⟨hf, hm, _⟩
  · rw [hf] at h
    cases h
    exact ⟨rfl, .refl _, Or.inl ⟨side, idx, slot, rfl, rfl, hb, hs, hk⟩⟩
  · rw [hf] at h
    cases h
    exact ⟨rfl, .refl _, Or.inr (Or.inr (Or.inr ⟨side, idx, slot, rfl, hm, hb, hs, h0⟩))⟩
  · rw [hf] at h
    dsimp only at h
    split at h
    · cases h
      exact ⟨rfl, .refl _, Or.inr (Or.inl ⟨rfl, hm⟩)⟩
    · rename_i hop hp
      have hg := path_good hpos h1 h2 hp
      have hb := hg.last rfl
      cases h
      refine ⟨rfl, .refl _, Or.inr (Or.inr ?_)⟩
      unfold claim
      split
      · rename_i h0
        exact Or.inr ⟨_, _, _, rfl, hm, hb.imp And.right And.right,
          (hg.bounds hop (by simp)).2, by simpa [Table.isOccupied] using h0⟩
      · exact Or.inl ⟨rfl, hm⟩
    · rename_i path hne hp
      obtain ⟨hb, hmoves, hr⟩ := displaceAll_spec path c (path_good hpos h1 h2 hp)
        (fun hop he => absurd he (hne hop)) h
      refine ⟨hb, hmoves, Or.inr (Or.inr ?_)⟩
      rcases hr with rfl | ⟨side, idx, slot, rfl, hbk, hs, h0⟩
      · exact Or.inl ⟨rfl, hm⟩
      · exact Or.inr ⟨side, idx, slot, rfl, hm, hbk, hs, h0⟩

/-! ## The public insert -/

theorem WellFormed.moves (h : c.WellFormed) (hb : c'.buckets = c.buckets)
    (hm : Moves (home c.buckets) c.content c'.content) : c'.WellFormed where
  pos := hb ▸ h.pos
  placed := hb ▸ hm.placed h.placed
  unique := hm.unique h.unique

/-- Writing a node over an empty slot, or over a slot with its key, of one of its
two buckets. -/
theorem WellFormed.write (h : c.WellFormed) {element : Node} {idx slot : Nat}
    (hb : Bucket (hash c.buckets element.key .one) (hash c.buckets element.key .two) idx)
    (hs : slot < entryWidth)
    (hn : ∀ cell a, c.content cell = some a → a.key = element.key → cell = (idx, slot)) :
    (⟨c.buckets, c.table.setElement idx slot element⟩ : Cuckoo).WellFormed := by
  have hi := hb.lt (hash_lt h.pos element.key .one) (hash_lt h.pos element.key .two)
  refine ⟨⟨h.pos, ?_⟩, ?_⟩ <;> rw [content_setElement element hi hs] <;> split
  · exact h.placed.erase
  · exact h.placed.put ⟨hb, hs⟩
  · exact h.unique.erase
  · exact h.unique.put hn

/-- What an insert of a node with a key answers and does to the set of nodes
stored: a node with the same key is replaced, an absent key is added or, when the
search fails, refused. -/
inductive Inserted (S : Set Node) (element : Node) : Result → Set Node → Prop
  | replaced {val : Word} (h : ⟨element.key, val⟩ ∈ S) :
    Inserted S element .dup (Insert.insert element (S \ {⟨element.key, val⟩}))
  | added (h : ∀ a ∈ S, a.key ≠ element.key) : Inserted S element .true (Insert.insert element S)
  | refused (h : ∀ a ∈ S, a.key ≠ element.key) : Inserted S element .abortFailure S

theorem node_eq {a : Node} (h : a.key = key) : a = ⟨key, a.val⟩ := by
  subst h
  rfl

/-- The slot `findSlot` names holds the only node with the key. -/
theorem WellFormed.slot_eq (h : c.WellFormed) {idx slot : Nat} (hi : idx < c.buckets)
    (hs : slot < entryWidth) (hk : (c.table.getElement idx slot).key = key) :
    ∀ cell a, c.content cell = some a → a.key = key → cell = (idx, slot) := by
  intro cell a ha hka
  have hne : key ≠ 0 := by
    obtain ⟨i, j⟩ := cell
    obtain ⟨_, _, _, hne⟩ := content_eq_some.mp ha
    rwa [hka] at hne
  have hsome : c.content (idx, slot) = some (c.table.getElement idx slot) :=
    content_eq_some.mpr ⟨hi, hs, rfl, hk ▸ hne⟩
  exact h.unique _ _ _ _ ha hsome (hka.trans hk.symm)

/-- The final write of `insert` after a duplicate. -/
theorem WellFormed.overwrite (h : c.WellFormed) {element : Node} {idx slot : Nat}
    (hb : Bucket (hash c.buckets element.key .one) (hash c.buckets element.key .two) idx)
    (hs : slot < entryWidth) (hk : (c.table.getElement idx slot).key = element.key) :
    (⟨c.buckets, c.table.setElement idx slot element⟩ : Cuckoo).WellFormed ∧
      (if element.key = 0 then
        stored (⟨c.buckets, c.table.setElement idx slot element⟩ : Cuckoo).content =
          stored c.content
      else Inserted (stored c.content) element .dup
        (stored (⟨c.buckets, c.table.setElement idx slot element⟩ : Cuckoo).content)) := by
  have hi := hb.lt (hash_lt h.pos element.key .one) (hash_lt h.pos element.key .two)
  refine ⟨h.write hb hs (h.slot_eq hi hs hk), ?_⟩
  rw [content_setElement element hi hs]
  split
  · rename_i h0
    have hnone := (content_eq_none hi hs).mpr (hk.trans h0)
    rw [← hnone, Function.update_eq_self]
  · rename_i hne
    have hsome : c.content (idx, slot) =
        some ⟨element.key, (c.table.getElement idx slot).val⟩ :=
      content_eq_some.mpr ⟨hi, hs, node_eq hk, hne⟩
    rw [stored_replace h.unique hsome]
    exact .replaced ⟨_, hsome⟩

/-- The final write of `insert` after a success. -/
theorem WellFormed.fill (h : c.WellFormed) {element : Node} {idx slot : Nat}
    (hb : Bucket (hash c.buckets element.key .one) (hash c.buckets element.key .two) idx)
    (hs : slot < entryWidth) (hn : ∀ a ∈ stored c.content, a.key ≠ element.key)
    (h0 : (c.table.getElement idx slot).key = 0) :
    (⟨c.buckets, c.table.setElement idx slot element⟩ : Cuckoo).WellFormed ∧
      (if element.key = 0 then
        stored (⟨c.buckets, c.table.setElement idx slot element⟩ : Cuckoo).content =
          stored c.content
      else Inserted (stored c.content) element .true
        (stored (⟨c.buckets, c.table.setElement idx slot element⟩ : Cuckoo).content)) := by
  have hi := hb.lt (hash_lt h.pos element.key .one) (hash_lt h.pos element.key .two)
  have hnone := (content_eq_none hi hs).mpr h0
  refine ⟨h.write hb hs fun cell a ha hka => absurd hka (hn a ⟨cell, ha⟩), ?_⟩
  rw [content_setElement element hi hs]
  split
  · rw [← hnone, Function.update_eq_self]
  · rw [stored_put hnone]
    exact .added hn

/-- The rounds of `insert`: each either answers or only moves nodes between their
homes. A node without a key never changes what is stored. -/
theorem insertLoop_spec {element : Node} {rands : Nat → Nat → Nat} :
    ∀ {fuel n : Nat} {c c' : Cuckoo} {r : Result}, c.WellFormed →
      idx1 = hash c.buckets element.key .one → idx2 = hash c.buckets element.key .two →
      insertLoop element idx1 idx2 rands fuel n c = some (r, c') →
      c'.buckets = c.buckets ∧ c'.WellFormed ∧
        (if element.key = 0 then stored c'.content = stored c.content
        else Inserted (stored c.content) element r (stored c'.content)) := by
  intro fuel
  induction fuel with
  | zero => intro n c c' r _ _ _ h; cases h
  | succ fuel ih =>
    intro n c c' r hc h1 h2 h
    subst h1 h2
    simp only [insertLoop] at h
    cases hres : c.insertAt element.key (hash c.buckets element.key .one)
      (hash c.buckets element.key .two) (rands n) with
    | mk res d =>
      rw [hres] at h
      obtain ⟨hb, hmoves, hcase⟩ := insertAt_spec hc.pos (hash_lt hc.pos element.key .one)
        (hash_lt hc.pos element.key .two) hres
      have hd := hc.moves hb hmoves
      have habsent : c.Missing element.key (hash c.buckets element.key .one)
          (hash c.buckets element.key .two) → ∀ a ∈ stored d.content, a.key ≠ element.key := by
        intro hm
        rw [hmoves.stored_eq]
        exact hc.not_stored hm
      rcases hcase with ⟨side, idx, slot, rfl, rfl, hbk, hs, hk⟩ | ⟨rfl, hm⟩ | ⟨rfl, hm⟩ |
        ⟨side, idx, slot, rfl, hm, hbk, hs, h0⟩
      · cases h
        exact ⟨rfl, hc.overwrite hbk hs hk⟩
      · cases h
        refine ⟨hb, hd, ?_⟩
        have ha := habsent hm
        rw [hmoves.stored_eq] at ha ⊢
        split
        · rfl
        · exact .refused ha
      · obtain ⟨hb', hwf, hins⟩ := ih hd (by rw [hb]) (by rw [hb]) h
        rw [hmoves.stored_eq] at hins
        exact ⟨hb'.trans hb, hwf, hins⟩
      · cases h
        rw [← hb] at hbk
        have hfill := hd.fill hbk hs (habsent hm) h0
        rw [hmoves.stored_eq] at hfill
        exact ⟨hb, hfill⟩

/-- **The public insert.** -/
theorem insert_spec (hc : c.WellFormed) {element : Node} {rands : Nat → Nat → Nat} {fuel : Nat}
    {r : Result} (h : c.insert element rands fuel = some (r, c')) :
    c'.buckets = c.buckets ∧ c'.WellFormed ∧
      (if element.key = 0 then stored c'.content = stored c.content
      else Inserted (stored c.content) element r (stored c'.content)) :=
  insertLoop_spec hc rfl rfl h

/-- The stored node with the key of the inserted one is the inserted one, unless
the insert was refused; other keys keep theirs. -/
theorem insert_stored (hc : c.WellFormed) {element : Node}
    (hk : element.key ≠ 0) {rands : Nat → Nat → Nat} {fuel : Nat} {result : Result}
    (h : c.insert element rands fuel = some (result, c')) :
    (result ≠ .abortFailure → ∀ v, ⟨element.key, v⟩ ∈ stored c'.content ↔ v = element.val) ∧
      ∀ k v, (k ≠ element.key ∨ result = .abortFailure) →
        (⟨k, v⟩ ∈ stored c'.content ↔ ⟨k, v⟩ ∈ stored c.content) := by
  obtain ⟨_, _, hins⟩ := insert_spec hc h
  rw [if_neg hk] at hins
  have hself : ∀ v, (⟨element.key, v⟩ : Node) = element ↔ v = element.val := by
    obtain ⟨key, val⟩ := element
    simp
  generalize stored c'.content = S' at hins
  cases hins with
  | @replaced val hmem =>
    refine ⟨fun _ v => ?_, fun k v hor => ?_⟩
    · rw [Set.mem_insert_iff, hself, Set.mem_sdiff, Set.mem_singleton_iff]
      refine ⟨fun hv => hv.resolve_right fun ⟨hv, hne⟩ => hne ?_, Or.inl⟩
      -- the key is stored once
      obtain ⟨q₁, hq₁⟩ := hv
      obtain ⟨q₂, hq₂⟩ := hmem
      rw [hc.unique _ _ _ _ hq₁ hq₂ rfl, hq₂] at hq₁
      exact (Option.some.inj hq₁).symm
    · have hne : k ≠ element.key := hor.resolve_right nofun
      rw [Set.mem_insert_iff, Set.mem_sdiff, Set.mem_singleton_iff]
      have h₁ : (⟨k, v⟩ : Node) ≠ element := fun he => hne (congrArg Node.key he)
      have h₂ : (⟨k, v⟩ : Node) ≠ ⟨element.key, val⟩ := fun he => hne (congrArg Node.key he)
      tauto
  | added habs =>
    refine ⟨fun _ v => ?_, fun k v hor => ?_⟩
    · rw [Set.mem_insert_iff, hself]
      exact ⟨fun hv => hv.resolve_right fun hv => habs _ hv rfl, Or.inl⟩
    · have hne : k ≠ element.key := hor.resolve_right nofun
      rw [Set.mem_insert_iff]
      have h₁ : (⟨k, v⟩ : Node) ≠ element := fun he => hne (congrArg Node.key he)
      tauto
  | refused habs => exact ⟨fun hne => absurd rfl hne, fun k v _ => Iff.rfl⟩

/-! ## Remove, contains and size -/

/-- `remove` takes the one node with the key out of the table, or finds none. -/
theorem remove_spec (hc : c.WellFormed) (hk : key ≠ 0) :
    (c.remove key).2.buckets = c.buckets ∧ (c.remove key).2.WellFormed ∧
      ((∃ val, ⟨key, val⟩ ∈ stored c.content ∧ (c.remove key).1 = .true ∧
          stored (c.remove key).2.content = stored c.content \ {⟨key, val⟩}) ∨
        ((∀ a ∈ stored c.content, a.key ≠ key) ∧ c.remove key = (.false, c))) := by
  have hempty : ∀ side slot, slot < entryWidth →
      (c.table.getElement (hash c.buckets key side) slot).key = key →
      (⟨c.buckets, c.table.setKey (hash c.buckets key side) slot 0⟩ : Cuckoo).WellFormed ∧
      ∃ val, ⟨key, val⟩ ∈ stored c.content ∧
        stored (⟨c.buckets, c.table.setKey (hash c.buckets key side) slot 0⟩ : Cuckoo).content =
          stored c.content \ {⟨key, val⟩} := by
    intro side slot hs hkey
    have hi := hash_lt hc.pos key side
    have hsome : c.content (hash c.buckets key side, slot) =
        some ⟨key, (c.table.getElement (hash c.buckets key side) slot).val⟩ :=
      content_eq_some.mpr ⟨hi, hs, node_eq hkey, hk⟩
    rw [content_setKey hi hs]
    refine ⟨⟨⟨hc.pos, ?_⟩, ?_⟩, _, ⟨_, hsome⟩, stored_erase hc.unique hsome⟩ <;>
      rw [content_setKey hi hs]
    · exact hc.placed.erase
    · exact hc.unique.erase
  unfold remove
  dsimp only
  cases h1 : c.table.findSlot key (hash c.buckets key .one) with
  | some slot =>
    obtain ⟨hs, he⟩ := Table.findSlot_some h1
    obtain ⟨hwf, val, hmem, hst⟩ := hempty .one slot hs he
    exact ⟨rfl, hwf, Or.inl ⟨val, hmem, rfl, hst⟩⟩
  | none =>
    cases h2 : c.table.findSlot key (hash c.buckets key .two) with
    | some slot =>
      obtain ⟨hs, he⟩ := Table.findSlot_some h2
      obtain ⟨hwf, val, hmem, hst⟩ := hempty .two slot hs he
      exact ⟨rfl, hwf, Or.inl ⟨val, hmem, rfl, hst⟩⟩
    | none =>
      refine ⟨rfl, hc, Or.inr ⟨hc.not_stored fun i hi => ?_, rfl⟩⟩
      exact ⟨Table.findSlot_none h1 i hi, Table.findSlot_none h2 i hi⟩

theorem contains_iff (hc : c.WellPlaced) (hk : key ≠ 0) :
    c.contains key = .true ↔ ∃ val, ⟨key, val⟩ ∈ stored c.content := by
  have hfind : c.contains key = .true ↔ (c.table.find key (hash c.buckets key .one) ||
      c.table.find key (hash c.buckets key .two)) = true := by
    unfold contains
    split <;> simp_all
  rw [hfind, Bool.or_eq_true, Table.find_iff, Table.find_iff]
  have hcell : ∀ side slot, slot < entryWidth →
      (c.table.getElement (hash c.buckets key side) slot).key = key →
      ∃ val, ⟨key, val⟩ ∈ stored c.content := by
    intro side slot hs he
    exact ⟨_, _, content_eq_some.mpr ⟨hash_lt hc.pos key side, hs, node_eq he, hk⟩⟩
  refine ⟨?_, ?_⟩
  · intro h
    obtain ⟨i, hi, he⟩ | ⟨i, hi, he⟩ := h
    · exact hcell .one i hi he
    · exact hcell .two i hi he
  · intro ⟨val, ⟨idx, slot⟩, h⟩
    obtain ⟨hi, hs⟩ := hc.placed _ _ h
    obtain ⟨_, _, he, _⟩ := content_eq_some.mp h
    dsimp only at hi hs
    rcases hi with rfl | rfl
    · exact Or.inl ⟨slot, hs, by rw [he]⟩
    · exact Or.inr ⟨slot, hs, by rw [he]⟩

/-- `contains` has no third answer. -/
theorem contains_false_iff : c.contains key = .false ↔ c.contains key ≠ .true := by
  unfold contains
  split <;> simp

/-- `size` counts the occupied cells. -/
theorem size_eq_tally (c : Cuckoo) :
    c.size = tally (cells c.buckets) (fun _ => true) c.content := by
  unfold size
  simp only [foldl_add_eq_sum]
  rw [zero_add, tally_eq_sum]
  unfold cells
  rw [Finset.sum_product]
  apply Finset.sum_congr rfl
  intro i hi
  apply Finset.sum_congr rfl
  intro j hj
  cases ho : Table.isOccupied (c.table.getElement i j) with
  | true =>
    have := content_eq_some.mpr ⟨Finset.mem_range.mp hi, Finset.mem_range.mp hj, rfl,
      Table.isOccupied_iff.mp ho⟩
    simp [this]
  | false =>
    have := (content_eq_none (Finset.mem_range.mp hi) (Finset.mem_range.mp hj)).mpr
      (Table.isOccupied_eq_false.mp ho)
    simp [this]

end ConcurrentComputing.Store.Cuckoo
