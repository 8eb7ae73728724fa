import ConcurrentComputing.PartitionedStore

/-! # The partitioned store is one set

The servers' calls on their stores, in the order in which they were made, answer as
one set does; every answer a client has was made by one of them while its call was in
progress. -/

namespace ConcurrentComputing.Tcp

open Function Runs HashMap LazyList

variable {κ : Type}

def RemoteCall.inserts (key : Word) : RemoteCall → Bool
  | .get _ => false
  | .insert data => decide (data.1 = key)

/-- The keys stored once the calls have been made. -/
def stored (served : List (Served κ)) : Finset Int :=
  served.foldl (fun S e => (Op.answer S e.call.op).2) ∅

/-- Those of one server. -/
def storedAt (nodes node : Nat) (S : Finset Int) : Finset Int :=
  S.filter fun k => k.toNat % nodes = node

/-- What an earlier call of the servers says about a later one. -/
def Settles (e e' : Served κ) : Prop :=
  e.served < e'.served ∧ ∀ key, e.call.inserts key = true →
    (e'.call.inserts key = true → e'.result = .false) ∧ (e'.call = .get key → e'.result = .true)

structure Inv (nodes : Nat) (s : State κ) : Prop where
  stores : ∀ j < nodes, (s.stores j).Countable ∧
    (s.stores j).Represents (storedAt nodes j (stored s.served))
  settled : s.served.Pairwise Settles
  results : ∀ e ∈ s.served, (e.result = .true ∨ e.result = .false) ∧ ∀ key, e.call = .get key →
    e.result = .true → ∃ e' ∈ s.served, e'.call.inserts key = true ∧ e'.served < e.served
  past : ∀ e ∈ s.served, e.sent < e.served ∧ e.served < s.clock ∧ ⟨e.call, e.sent⟩ ∈ s.calls
  idle : ∀ c, s.waiting c = none → ∀ j, s.toServer c j = [] ∧ s.toClient c j = []
  sent : ∀ c p, s.waiting c = some p → p.call.InRange ∧ p.sent < s.clock ∧ p ∈ s.calls ∧
    ∀ a ∈ s.answered, a.client = c → a.sent < p.sent
  elsewhere : ∀ c p, s.waiting c = some p → ∀ j ≠ hash nodes p.call.key,
    s.toServer c j = [] ∧ s.toClient c j = []
  /-- The line is under way to the server, or the answer back. -/
  underWay : ∀ c p, s.waiting c = some p →
    (s.toServer c (hash nodes p.call.key) = (sendMessage p.call.message).map .byte ∧
      s.toClient c (hash nodes p.call.key) = []) ∨
    (s.toServer c (hash nodes p.call.key) = [] ∧ ∃ e ∈ s.served, e.client = c ∧
      e.call = p.call ∧ e.sent = p.sent ∧
        s.toClient c (hash nodes p.call.key) = (sendResponse e.result).map .byte)
  answered : ∀ a ∈ s.answered, a.sent < s.clock ∧ ∃ e ∈ s.served, e.client = a.client ∧
    e.call = a.call ∧ e.sent = a.sent ∧ e.result = a.answer ∧ e.served < a.answered
  distinct : s.answered.Pairwise fun a b => a.client = b.client → a.sent < b.sent

variable {nodes j : Nat} {s t : State κ} {call : RemoteCall} {c c' : κ} {key : Word}
  {S : Finset Int} {served : List (Served κ)} {e : Served κ} {reads : List Read}

theorem RemoteCall.inserts_iff : call.inserts key = true ↔ ∃ v, call = .insert (key, v) := by
  cases call with
  | get k => simp [inserts]
  | insert data =>
    obtain ⟨k, v⟩ := data
    simp [inserts]

/-! ## Keys and nodes -/

theorem stored_snoc : stored (served ++ [e]) = (Op.answer (stored served) e.call.op).2 := by
  simp [stored]

theorem mem_answer {k : Int} : k ∈ (Op.answer S call.op).2 ↔
    k ∈ S ∨ ∃ data, call = .insert data ∧ data.1.toInt = k := by
  cases call with
  | get key => simp [RemoteCall.op, Op.answer]
  | insert data =>
    rw [RemoteCall.op, Op.answer, Finset.mem_insert, or_comm]
    simp [eq_comm]

theorem mem_stored : key.toInt ∈ stored served ↔ ∃ e ∈ served, e.call.inserts key = true := by
  induction served using List.reverseRecOn with
  | nil => simp [stored]
  | append_singleton served e ih =>
    have hiff : (∃ data, e.call = .insert data ∧ data.1.toInt = key.toInt) ↔
        e.call.inserts key = true := by
      rw [RemoteCall.inserts_iff]
      constructor
      · intro ⟨⟨k, v⟩, he, hk⟩
        obtain rfl := BitVec.eq_of_toInt_eq hk
        exact ⟨v, he⟩
      · exact fun ⟨v, he⟩ => ⟨_, he, rfl⟩
    rw [stored_snoc, mem_answer, ih, hiff]
    simp [or_and_right, exists_or]

/-- A call reaches the one server that has its key. -/
theorem storedAt_answer (h : call.InRange) :
    storedAt nodes j (Op.answer S call.op).2 =
      if hash nodes call.key = j then (Op.answer (storedAt nodes j S) call.op).2
      else storedAt nodes j S := by
  rw [hash_eq h, storedAt, storedAt]
  cases call with
  | get key => simp [RemoteCall.op, Op.answer]
  | insert data =>
    exact Finset.filter_insert _ _ _

theorem answer_storedAt (h : call.InRange) :
    (Op.answer (storedAt nodes (hash nodes call.key) S) call.op).1 = (Op.answer S call.op).1 := by
  have hmem : call.key.toInt ∈ storedAt nodes (hash nodes call.key) S ↔ call.key.toInt ∈ S := by
    rw [hash_eq h, storedAt, Finset.mem_filter]
    exact and_iff_left rfl
  cases call with
  | get key =>
    simp only [RemoteCall.key] at hmem
    simp only [RemoteCall.op, Op.answer, RemoteCall.key, hmem]
  | insert data =>
    simp only [RemoteCall.key] at hmem
    simp only [RemoteCall.op, Op.answer, RemoteCall.key, hmem]

/-! ## What the servers' order gives the clients -/

/-- The answers are those of one set. -/
structure OneSet (s : State κ) : Prop where
  answers : ∀ a ∈ s.answered, a.answer = .true ∨ a.answer = .false
  once : ∀ key, (s.answered.filter fun a => a.call.inserts key && a.answer = .true).length ≤ 1
  seen : ∀ key, ∀ a ∈ s.answered, a.call.inserts key = true → ∀ b ∈ s.answered,
    b.call = .get key → a.answered < b.sent → b.answer = .true
  inserted : ∀ key, ∀ b ∈ s.answered, b.call = .get key → b.answer = .true →
    ∃ p ∈ s.calls, p.call.inserts key = true ∧ p.sent < b.answered

/-- Of two calls of the servers one is made first. -/
theorem Inv.cases (h : Inv nodes s) {e e' : Served κ} (he : e ∈ s.served) (he' : e' ∈ s.served) :
    e = e' ∨ Settles e e' ∨ Settles e' e := by
  by_cases heq : e = e'
  · exact Or.inl heq
  · have hsym : Std.Symm fun e e' : Served κ => Settles e e' ∨ Settles e' e := ⟨fun _ _ => Or.symm⟩
    have hpair : s.served.Pairwise fun e e' => Settles e e' ∨ Settles e' e :=
      h.settled.imp fun hs => Or.inl hs
    exact Or.inr (hpair.forall he he' heq)

/-- One call of a client has one answer. -/
theorem Inv.one_answer (h : Inv nodes s) :
    s.answered.Pairwise fun a b => ¬ (a.client = b.client ∧ a.sent = b.sent) :=
  h.distinct.imp fun hab => fun ⟨hc, hs⟩ => Nat.ne_of_lt (hab hc) hs

/-- One insert of a key has found it missing. -/
theorem Inv.won (h : Inv nodes s) {e e' : Served κ} (he : e ∈ s.served) (he' : e' ∈ s.served)
    (hk : e.call.inserts key = true) (hk' : e'.call.inserts key = true) (ht : e.result = .true)
    (ht' : e'.result = .true) : e = e' := by
  rcases h.cases he he' with heq | hs | hs
  · exact heq
  · rw [(hs.2 key hk).1 hk'] at ht'
    cases ht'
  · rw [(hs.2 key hk').1 hk] at ht
    cases ht

theorem Inv.oneSet (h : Inv nodes s) : OneSet s where
  answers := fun a ha => by
    obtain ⟨_, e, he, _, _, _, hres, _⟩ := h.answered a ha
    exact hres ▸ (h.results e he).1
  once := fun key => by
    have hpair := h.one_answer.filter fun a => a.call.inserts key && a.answer = .true
    rcases hl : s.answered.filter fun a => a.call.inserts key && a.answer = .true with
      _ | ⟨a, _ | ⟨b, l⟩⟩
    · rw [hl]
      exact Nat.zero_le _
    · rw [hl]
      exact Nat.le_refl _
    · rw [hl, List.pairwise_cons] at hpair
      have hmem : ∀ x ∈ a :: b :: l, ∃ e ∈ s.served, e.client = x.client ∧ e.sent = x.sent ∧
          e.call.inserts key = true ∧ e.result = .true := by
        intro x hx
        rw [← hl, List.mem_filter, Bool.and_eq_true, decide_eq_true_iff] at hx
        obtain ⟨_, e, he, h1, h2, h3, h4, _⟩ := h.answered x hx.1
        exact ⟨e, he, h1, h3, h2 ▸ hx.2.1, h4 ▸ hx.2.2⟩
      obtain ⟨e, he, h1, h2, h3, h4⟩ := hmem a List.mem_cons_self
      obtain ⟨e', he', h1', h2', h3', h4'⟩ := hmem b (List.mem_cons_of_mem _ List.mem_cons_self)
      obtain rfl := h.won he he' h3 h3' h4 h4'
      exact absurd ⟨h1.symm.trans h1', h2.symm.trans h2'⟩ (hpair.1 b List.mem_cons_self)
  seen := fun key a ha hins b hb hget hlt => by
    obtain ⟨_, e, he, _, hcall, _, _, hbefore⟩ := h.answered a ha
    obtain ⟨_, e', he', _, hcall', hsent', hres', _⟩ := h.answered b hb
    have hlate := (h.past e' he').1
    rw [← hcall] at hins
    rw [← hcall'] at hget
    rcases h.cases he he' with rfl | hs | hs
    · omega
    · exact hres' ▸ (hs.2 key hins).2 hget
    · have hfirst := hs.1
      omega
  inserted := fun key b hb hget htrue => by
    obtain ⟨_, e, he, _, hcall, _, hres, hlt⟩ := h.answered b hb
    rw [← hcall] at hget
    rw [← hres] at htrue
    obtain ⟨e', he', hins, hfirst⟩ := (h.results e he).2 key hget htrue
    obtain ⟨hsent, _, hmem⟩ := h.past e' he'
    exact ⟨_, hmem, hins, by dsimp only; omega⟩

/-! ## What holds between steps -/

theorem socketGetLine_nil : socketGetLine [] = none := rfl

theorem countable_new : (ConcurrentHashMap.new 100).Countable :=
  ⟨show 0 < 100 by decide, show ((100 : Nat) : Int) ≤ LazyList.intMax by decide⟩

theorem Inv.init : Inv nodes (State.init κ) where
  stores := fun _ _ => ⟨countable_new, .new 100⟩
  settled := .nil
  results := nofun
  past := nofun
  idle := fun _ _ _ => ⟨rfl, rfl⟩
  sent := nofun
  elsewhere := nofun
  underWay := nofun
  answered := nofun
  distinct := .nil

/-- A request that a server can read is that of a client which waits for this one. -/
theorem Inv.request (h : Inv nodes s) {line : Option Buffer}
    (hg : socketGetLine (s.toServer c j) = some (line, reads)) :
    ∃ p, s.waiting c = some p ∧ j = hash nodes p.call.key ∧ s.toClient c j = [] ∧
      s.toServer c j = (sendMessage p.call.message).map .byte := by
  have hne : s.toServer c j ≠ [] := by
    intro he
    rw [he, socketGetLine_nil] at hg
    cases hg
  cases hw : s.waiting c with
  | none => exact absurd (h.idle c hw j).1 hne
  | some p =>
    by_cases hj : j = hash nodes p.call.key
    · subst hj
      rcases h.underWay c p hw with ⟨hserver, hclient⟩ | ⟨hserver, _⟩
      · exact ⟨p, rfl, rfl, hclient, hserver⟩
      · exact absurd hserver hne
    · exact absurd (h.elsewhere c p hw j hj).1 hne

/-- An answer that a client can read is that of its own call. -/
theorem Inv.reply (h : Inv nodes s) {p : Sent} {line : Option Buffer} (hw : s.waiting c = some p)
    (hg : socketGetLine (s.toClient c (hash nodes p.call.key)) = some (line, reads)) :
    s.toServer c (hash nodes p.call.key) = [] ∧ ∃ e ∈ s.served, e.client = c ∧ e.call = p.call ∧
      e.sent = p.sent ∧
        s.toClient c (hash nodes p.call.key) = (sendResponse e.result).map .byte := by
  rcases h.underWay c p hw with ⟨_, hclient⟩ | hreply
  · rw [hclient, socketGetLine_nil] at hg
    cases hg
  · exact hreply

/-- The call a server makes next is settled by those before it. -/
theorem Inv.settles (h : Inv nodes s) {p : Sent} (he : e ∈ s.served) :
    Settles e ⟨c, p.call, p.sent, (Op.answer (stored s.served) p.call.op).1, s.clock⟩ := by
  refine ⟨(h.past e he).2.1, fun key hkey => ?_⟩
  have hmem : key.toInt ∈ stored s.served := mem_stored.mpr ⟨e, he, hkey⟩
  constructor
  · intro hins
    obtain ⟨v, hv⟩ := RemoteCall.inserts_iff.mp hins
    simp only [show p.call = _ from hv, RemoteCall.op, Op.answer, if_pos hmem]
  · intro hget
    simp only [show p.call = _ from hget, RemoteCall.op, Op.answer, if_pos hmem]

/-! ## Steps -/

variable [DecidableEq κ]

theorem onWire_apply {wires : κ → Nat → List Read} {j' : Nat} :
    onWire wires c j reads c' j' = if c' = c ∧ j' = j then reads else wires c' j' := by
  unfold onWire
  by_cases hc : c' = c
  · subst hc
    simp [update_apply]
  · simp [hc]

/-- A client with no call in progress makes one. -/
theorem Inv.called (h : Inv nodes s) (hr : call.InRange)
    (hs : step nodes s (.call c call) = some t) : Inv nodes t := by
  simp only [step] at hs
  split at hs
  · cases hs
  · rename_i hidle
    cases hs
    obtain ⟨hserver, hclient⟩ := h.idle c hidle (hash nodes call.key)
    rw [hserver, List.nil_append]
    refine { stores := h.stores, settled := h.settled, results := h.results,
             past := ?_, idle := ?_, sent := ?_, elsewhere := ?_, underWay := ?_,
             answered := ?_, distinct := h.distinct }
    · intro e he
      obtain ⟨h1, h2, h3⟩ := h.past e he
      exact ⟨h1, Nat.lt_succ_of_lt h2, List.mem_append_left _ h3⟩
    · intro c' hc' j
      dsimp only at hc' ⊢
      rcases update_cases hc' with ⟨he, hc'⟩ | ⟨he, hc'⟩
      · cases hc'
      · rw [onWire_apply, if_neg fun hand => he hand.1]
        exact h.idle c' hc' j
    · intro c' p hp
      dsimp only at hp ⊢
      rcases update_cases hp with ⟨he, hp⟩ | ⟨he, hp⟩
      · cases hp
        refine ⟨hr, Nat.lt_succ_self _, List.mem_append_right _ (List.mem_singleton_self _), ?_⟩
        exact fun a ha _ => (h.answered a ha).1
      · obtain ⟨h1, h2, h3, h4⟩ := h.sent c' p hp
        exact ⟨h1, Nat.lt_succ_of_lt h2, List.mem_append_left _ h3, h4⟩
    · intro c' p hp j hj
      dsimp only at hp ⊢
      rcases update_cases hp with ⟨he, hp⟩ | ⟨he, hp⟩
      · cases hp
        rw [onWire_apply, if_neg fun hand => hj hand.2, he]
        exact h.idle c hidle j
      · rw [onWire_apply, if_neg fun hand => he hand.1]
        exact h.elsewhere c' p hp j hj
    · intro c' p hp
      dsimp only at hp ⊢
      rcases update_cases hp with ⟨he, hp⟩ | ⟨he, hp⟩
      · cases hp
        rw [onWire_apply, if_pos ⟨he, rfl⟩, he]
        exact Or.inl ⟨rfl, hclient⟩
      · rw [onWire_apply, if_neg fun hand => he hand.1]
        exact h.underWay c' p hp
    · intro a ha
      obtain ⟨h1, he⟩ := h.answered a ha
      exact ⟨Nat.lt_succ_of_lt h1, he⟩

/-- What one `handleMessage` does. -/
theorem Inv.handle_eq (h : Inv nodes s) (hn : 0 < nodes) {p : Sent} (hw : s.waiting c = some p)
    (hserver : s.toServer c (hash nodes p.call.key) = (sendMessage p.call.message).map .byte)
    (hclient : s.toClient c (hash nodes p.call.key) = []) :
    ∃ store, store.Countable ∧
      store.Represents (Op.answer (storedAt nodes (hash nodes p.call.key) (stored s.served))
        p.call.op).2 ∧
      step nodes s (.handle c (hash nodes p.call.key)) = some { s with
        stores := update s.stores (hash nodes p.call.key) store
        toServer := onWire s.toServer c (hash nodes p.call.key) []
        toClient := onWire s.toClient c (hash nodes p.call.key)
          ((sendResponse (Op.answer (stored s.served) p.call.op).1).map .byte)
        served := s.served ++
          [⟨c, p.call, p.sent, (Op.answer (stored s.served) p.call.op).1, s.clock⟩]
        clock := s.clock + 1 } := by
  have hr := (h.sent c p hw).1
  have hlt := hash_lt hn hr
  obtain ⟨hb, hrep⟩ := h.stores _ hlt
  obtain ⟨m, hget, hhandle⟩ := call_handled hr (s.stores (hash nodes p.call.key))
  obtain ⟨store, hcall, hb', hrep'⟩ := call_answered hrep hb hr
  rw [answer_storedAt hr] at hcall
  refine ⟨store, hb', hrep', ?_⟩
  simp only [step, if_pos hlt, hserver, hget, hhandle, ask, hcall, hclient, hw, List.nil_append,
    Option.toList_some, List.map_cons, List.map_nil]

theorem answer_eq (S : Finset Int) (call : RemoteCall) :
    (Op.answer S call.op).1 = .true ∨ (Op.answer S call.op).1 = .false := by
  cases call <;> simp only [RemoteCall.op, Op.answer] <;> split <;> simp

theorem Inv.handled (h : Inv nodes s) (hn : 0 < nodes)
    (hs : step nodes s (.handle c j) = some t) : Inv nodes t := by
  obtain ⟨⟨line, reads⟩, hg⟩ : ∃ x, socketGetLine (s.toServer c j) = some x := by
    cases hg : socketGetLine (s.toServer c j) with
    | some x => exact ⟨x, rfl⟩
    | none =>
      simp only [step, hg, ite_self] at hs
      cases hs
  obtain ⟨p, hw, rfl, hclient, hserver⟩ := h.request hg
  obtain ⟨store, hb, hrep, hstep⟩ := h.handle_eq hn hw hserver hclient
  cases hstep.symm.trans hs
  obtain ⟨hr, hlt, hcalls, _⟩ := h.sent c p hw
  refine { stores := ?_, settled := ?_, results := ?_, past := ?_, idle := ?_, sent := ?_,
           elsewhere := ?_, underWay := ?_, answered := ?_, distinct := h.distinct }
  · intro j hj
    dsimp only
    rw [stored_snoc, storedAt_answer hr]
    by_cases he : hash nodes p.call.key = j
    · subst he
      rw [update_self, if_pos rfl]
      exact ⟨hb, hrep⟩
    · rw [update_of_ne (Ne.symm he), if_neg he]
      exact h.stores j hj
  · refine List.pairwise_append.mpr ⟨h.settled, List.pairwise_singleton _ _, fun e he e' he' => ?_⟩
    rw [List.mem_singleton.mp he']
    exact h.settles he
  · intro e he
    rcases List.mem_append.mp he with he | he
    · obtain ⟨h1, h2⟩ := h.results e he
      refine ⟨h1, fun key hget htrue => ?_⟩
      obtain ⟨e', he', hrest⟩ := h2 key hget htrue
      exact ⟨e', List.mem_append_left _ he', hrest⟩
    · rw [List.mem_singleton.mp he]
      refine ⟨answer_eq _ _, fun key hget htrue => ?_⟩
      have hmem : key.toInt ∈ stored s.served := by
        by_contra hno
        simp only [show p.call = _ from hget, RemoteCall.op, Op.answer, if_neg hno] at htrue
        cases htrue
      obtain ⟨e', he', hins⟩ := mem_stored.mp hmem
      exact ⟨e', List.mem_append_left _ he', hins, (h.past e' he').2.1⟩
  · intro e he
    rcases List.mem_append.mp he with he | he
    · obtain ⟨h1, h2, h3⟩ := h.past e he
      exact ⟨h1, Nat.lt_succ_of_lt h2, h3⟩
    · rw [List.mem_singleton.mp he]
      exact ⟨hlt, Nat.lt_succ_self _, hcalls⟩
  · intro c' hc' j
    have he : c' ≠ c := by
      rintro rfl
      cases hw.symm.trans hc'
    dsimp only
    rw [onWire_apply, onWire_apply, if_neg fun hand => he hand.1, if_neg fun hand => he hand.1]
    exact h.idle c' hc' j
  · intro c' p' hp
    obtain ⟨h1, h2, h3⟩ := h.sent c' p' hp
    exact ⟨h1, Nat.lt_succ_of_lt h2, h3⟩
  · intro c' p' hp j hj
    have hne : ¬ (c' = c ∧ j = hash nodes p.call.key) := by
      rintro ⟨rfl, rfl⟩
      cases hw.symm.trans hp
      exact hj rfl
    dsimp only
    rw [onWire_apply, onWire_apply, if_neg hne, if_neg hne]
    exact h.elsewhere c' p' hp j hj
  · intro c' p' hp
    dsimp only
    rw [onWire_apply, onWire_apply]
    by_cases he : c' = c
    · subst he
      cases hw.symm.trans hp
      rw [if_pos ⟨rfl, rfl⟩, if_pos ⟨rfl, rfl⟩]
      exact Or.inr ⟨rfl, _, List.mem_append_right _ (List.mem_singleton_self _), rfl, rfl, rfl, rfl⟩
    · rw [if_neg fun hand => he hand.1, if_neg fun hand => he hand.1]
      refine (h.underWay c' p' hp).imp_right fun hunder => ?_
      obtain ⟨h1, e, he, hrest⟩ := hunder
      exact ⟨h1, e, List.mem_append_left _ he, hrest⟩
  · intro a ha
    obtain ⟨h1, e, he, hrest⟩ := h.answered a ha
    exact ⟨Nat.lt_succ_of_lt h1, e, List.mem_append_left _ he, hrest⟩

/-- What `awaitResponse` does once the answer is there. -/
theorem receive_eq {p : Sent} {result : Result} (hw : s.waiting c = some p)
    (hclient : s.toClient c (hash nodes p.call.key) = (sendResponse result).map .byte) :
    step nodes s (.receive c) = some { s with
      toClient := onWire s.toClient c (hash nodes p.call.key) []
      waiting := update s.waiting c none
      answered := s.answered ++ [⟨c, p.call, p.sent, result, s.clock⟩]
      clock := s.clock + 1 } := by
  obtain ⟨m, hget, hawait⟩ := response_awaited result
  simp only [step, hw, hclient, hget, hawait, Option.map_some]

theorem Inv.received (h : Inv nodes s) (hs : step nodes s (.receive c) = some t) :
    Inv nodes t := by
  obtain ⟨p, hw⟩ : ∃ p, s.waiting c = some p := by
    cases hw : s.waiting c with
    | some p => exact ⟨p, rfl⟩
    | none =>
      simp only [step, hw] at hs
      cases hs
  obtain ⟨⟨line, reads⟩, hg⟩ : ∃ x, socketGetLine (s.toClient c (hash nodes p.call.key)) = some x := by
    cases hg : socketGetLine (s.toClient c (hash nodes p.call.key)) with
    | some x => exact ⟨x, rfl⟩
    | none =>
      simp only [step, hw, hg] at hs
      cases hs
  obtain ⟨hserver, e, he, hc, hcall, hsent, hclient⟩ := h.reply hw hg
  cases (receive_eq hw hclient).symm.trans hs
  obtain ⟨hr, hlt, hcalls, hearlier⟩ := h.sent c p hw
  refine { stores := h.stores, settled := h.settled, results := h.results, past := ?_, idle := ?_,
           sent := ?_, elsewhere := ?_, underWay := ?_, answered := ?_, distinct := ?_ }
  · intro e he
    obtain ⟨h1, h2, h3⟩ := h.past e he
    exact ⟨h1, Nat.lt_succ_of_lt h2, h3⟩
  · intro c' hc' j
    dsimp only at hc' ⊢
    by_cases he : c' = c
    · subst he
      by_cases hj : j = hash nodes p.call.key
      · subst hj
        rw [onWire_apply, if_pos ⟨rfl, rfl⟩]
        exact ⟨hserver, rfl⟩
      · rw [onWire_apply, if_neg fun hand => hj hand.2]
        exact h.elsewhere c' p hw j hj
    · rw [update_of_ne he] at hc'
      rw [onWire_apply, if_neg fun hand => he hand.1]
      exact h.idle c' hc' j
  · intro c' p' hp
    dsimp only at hp ⊢
    rcases update_cases hp with ⟨he, hp⟩ | ⟨he, hp⟩
    · cases hp
    · obtain ⟨h1, h2, h3, h4⟩ := h.sent c' p' hp
      refine ⟨h1, Nat.lt_succ_of_lt h2, h3, fun a ha hac => ?_⟩
      rcases List.mem_append.mp ha with ha | ha
      · exact h4 a ha hac
      · rw [List.mem_singleton.mp ha] at hac
        exact absurd hac.symm he
  · intro c' p' hp j hj
    dsimp only at hp ⊢
    rcases update_cases hp with ⟨he, hp⟩ | ⟨he, hp⟩
    · cases hp
    · rw [onWire_apply, if_neg fun hand => he hand.1]
      exact h.elsewhere c' p' hp j hj
  · intro c' p' hp
    dsimp only at hp ⊢
    rcases update_cases hp with ⟨he, hp⟩ | ⟨he, hp⟩
    · cases hp
    · rw [onWire_apply, if_neg fun hand => he hand.1]
      exact h.underWay c' p' hp
  · intro a ha
    rcases List.mem_append.mp ha with ha | ha
    · obtain ⟨h1, hrest⟩ := h.answered a ha
      exact ⟨Nat.lt_succ_of_lt h1, hrest⟩
    · rw [List.mem_singleton.mp ha]
      exact ⟨Nat.lt_succ_of_lt hlt, e, he, hc, hcall, hsent, rfl, (h.past e he).2.1⟩
  · refine List.pairwise_append.mpr
      ⟨h.distinct, List.pairwise_singleton _ _, fun a ha b hb hab => ?_⟩
    rw [List.mem_singleton.mp hb] at hab ⊢
    exact hearlier a ha hab

def Event.InRange : Event κ → Prop
  | .call _ call => call.InRange
  | _ => True

instance (ev : Event κ) : Decidable ev.InRange := by
  unfold Event.InRange
  split <;> infer_instance

theorem Inv.preserved (h : Inv nodes s) (hn : 0 < nodes) {ev : Event κ} (hr : ev.InRange)
    (hs : step nodes s ev = some t) : Inv nodes t := by
  cases ev with
  | call c call => exact h.called hr hs
  | handle c j => exact h.handled hn hs
  | receive c => exact h.received hs

theorem reachable_inv (hn : 0 < nodes) {es : List (Event κ)} (hr : ∀ ev ∈ es, ev.InRange)
    (h : exec (step nodes) (State.init κ) es = some s) : Inv nodes s := by
  refine exec_induction (motive := fun es s => (∀ ev ∈ es, ev.InRange) → Inv nodes s)
    (fun _ => .init) (fun es u ev t _ hu hs hr => ?_) h hr
  exact (hu fun ev hev => hr ev (List.mem_append_left _ hev)).preserved hn
    (hr ev (List.mem_append_right _ (List.mem_singleton_self _))) hs

/-- A call in progress is answered by one step of its server at most and one of its
client. -/
def CanAnswer (nodes : Nat) (s : State κ) (c : κ) (p : Sent) : Prop :=
  ∃ es t, (es = [.receive c] ∨ es = [.handle c (hash nodes p.call.key), .receive c]) ∧
    exec (step nodes) s es = some t ∧ ∃ a, t.answered = s.answered ++ [a] ∧ a.client = c ∧
      a.call = p.call ∧ a.sent = p.sent ∧ (a.answer = .true ∨ a.answer = .false)

theorem Inv.canAnswer (h : Inv nodes s) (hn : 0 < nodes) {p : Sent} (hw : s.waiting c = some p) :
    CanAnswer nodes s c p := by
  rcases h.underWay c p hw with ⟨hserver, hclient⟩ | ⟨hserver, e, he, hc, hcall, hsent, hclient⟩
  · obtain ⟨store, _, _, hstep⟩ := h.handle_eq hn hw hserver hclient
    obtain ⟨u, hu⟩ : ∃ u, step nodes s (.handle c (hash nodes p.call.key)) = some u := ⟨_, hstep⟩
    have hrun : step nodes u (.receive c) = some { u with
        toClient := onWire u.toClient c (hash nodes p.call.key) []
        waiting := update u.waiting c none
        answered := u.answered ++
          [⟨c, p.call, p.sent, (Op.answer (stored s.served) p.call.op).1, u.clock⟩]
        clock := u.clock + 1 } := by
      cases hstep.symm.trans hu
      refine receive_eq (p := p) hw ?_
      dsimp only
      rw [onWire_apply, if_pos ⟨rfl, rfl⟩]
    refine ⟨_, _, Or.inr rfl, exec_cons.mpr ⟨u, hu, exec_cons.mpr ⟨_, hrun, rfl⟩⟩,
      ⟨c, p.call, p.sent, _, u.clock⟩, ?_, rfl, rfl, rfl, answer_eq (stored s.served) p.call⟩
    cases hstep.symm.trans hu
    rfl
  · have hrun := receive_eq hw hclient
    exact ⟨_, _, Or.inl rfl, exec_cons.mpr ⟨_, hrun, rfl⟩, _, rfl, rfl, rfl, rfl,
      (h.results e he).1⟩

/-- **One set.** Over any number of servers, in every state of any number of clients:
every call has been answered `TRUE` or `FALSE` or can still be, one insert of a key
at most was told that it stored it, and a `get` finds a key once an insert of it was
answered, and only if one was sent. -/
theorem partitioned_store_one_set (hn : 0 < nodes) {es : List (Event κ)}
    (hr : ∀ ev ∈ es, ev.InRange) (h : exec (step nodes) (State.init κ) es = some s) :
    OneSet s ∧ ∀ c p, s.waiting c = some p → CanAnswer nodes s c p := by
  have hinv := reachable_inv hn hr h
  exact ⟨hinv.oneSet, fun c p hw => hinv.canAnswer hn hw⟩

/-- Two clients insert one key, and one asks for it. -/
def twoClients : List (Event Bool) :=
  [.call false (.insert (5, 7)), .call true (.insert (5, 8)), .handle true 1, .handle false 1,
    .receive true, .receive false, .call false (.get 5), .handle false 1, .receive false]

theorem partitioned_store_two_clients : ∃ s, exec (step 2) (State.init Bool) twoClients = some s ∧
    s.answered.map Answered.answer = [.true, .false, .true] ∧ OneSet s := by
  have hrun : ((exec (step 2) (State.init Bool) twoClients).map fun s =>
      s.answered.map Answered.answer) = some [.true, .false, .true] := by decide +kernel
  obtain ⟨s, hs, ha⟩ := Option.map_eq_some_iff.mp hrun
  exact ⟨s, hs, ha, (partitioned_store_one_set (by decide) (by decide) hs).1⟩

end ConcurrentComputing.Tcp
