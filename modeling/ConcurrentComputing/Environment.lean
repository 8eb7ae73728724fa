import ConcurrentComputing.RoundTrip
import Mathlib.Data.List.DropRight
import Mathlib.Algebra.Group.Nat.Even

/-! # The environment line

`parseNodes` of `Common/Parser.hpp`, the same in both of the stores: the servers of the
first line of the environment, each `host:port`, found in place. -/

namespace ConcurrentComputing.Environment

open Decimal Tcp

/-- `server` points into the line. -/
structure ServerNode where
  server : Nat
  port : Word
  deriving DecidableEq

mutual

/-- The outer loop with `i` at the head of the list: `before` is what the memory holds up
to there, with the terminators written so far. `none` where it would read beyond the
memory, or `i` would not be an `int`. -/
def parseLoop (nodes : List ServerNode) (window : Nat) (before : List Byte) :
    List Byte → Option (List ServerNode × List Byte)
  | [] => none
  | c :: rest =>
    if intMax < before.length then none
    else if c = 0 then some (nodes, before ++ c :: rest)
    else if c = char ':' then portLoop nodes window 0 (before ++ [0]) rest
    else parseLoop nodes window (before ++ [c]) rest

/-- The inner loop, and what comes after it up to the next round of the outer one. -/
def portLoop (nodes : List ServerNode) (window : Nat) (port : Word) (before : List Byte) :
    List Byte → Option (List ServerNode × List Byte)
  | [] => none
  | c :: rest =>
    if intMax < before.length then none
    else if isDigit c then portLoop nodes window (nextVal port c) (before ++ [c]) rest
    else parseLoop (nodes ++ [⟨window, port⟩]) (before.length + 1) (before ++ [c]) rest

end

/-- The servers, and the memory with the terminators. -/
def parseNodes (input : List Byte) : Option (List ServerNode × List Byte) := parseLoop [] 0 [] input

/-- What the pointer reads as, and the port. -/
def ServerNode.read (input : List Byte) (node : ServerNode) : List Byte × Int :=
  ((input.drop node.server).takeWhile (· ≠ 0), node.port.toInt)

/-! ## Both loops over a string -/

/-- The loops between two bytes; `port` is there while the inner one runs. -/
structure Scan where
  nodes : List ServerNode
  window : Nat
  before : List Byte
  port : Option Word

namespace Scan

def step (s : Scan) (c : Byte) : Scan :=
  match s.port with
  | none =>
    if c = char ':' then { s with before := s.before ++ [0], port := some 0 }
    else { s with before := s.before ++ [c] }
  | some port =>
    if isDigit c then { s with before := s.before ++ [c], port := some (nextVal port c) }
    else ⟨s.nodes ++ [⟨s.window, port⟩], s.before.length + 1, s.before ++ [c], none⟩

/-- At the null character the outer loop ends, but the inner one is stepped out of. -/
def finish (s : Scan) (rest : List Byte) : Option (List ServerNode × List Byte) :=
  match s.port with
  | none => some (s.nodes, s.before ++ 0 :: rest)
  | some port =>
    parseLoop (s.nodes ++ [⟨s.window, port⟩]) (s.before.length + 1) (s.before ++ [0]) rest

end Scan

variable {s : List Byte}

theorem loops_scan (h : 0 ∉ s) (nodes : List ServerNode) (window : Nat) (before rest : List Byte) :
    (parseLoop nodes window before (s ++ 0 :: rest) = if intMax < before.length + s.length then none
      else (s.foldl Scan.step ⟨nodes, window, before, none⟩).finish rest) ∧
    ∀ port, portLoop nodes window port before (s ++ 0 :: rest) =
      if intMax < before.length + s.length then none
      else (s.foldl Scan.step ⟨nodes, window, before, some port⟩).finish rest := by
  induction s generalizing nodes window before with
  | nil =>
    refine ⟨?_, fun port => ?_⟩
    · rw [List.nil_append, parseLoop, if_pos rfl]
      rfl
    · have hnull : isDigit 0 = false := rfl
      rw [List.nil_append, portLoop, hnull]
      rfl
  | cons c s ih =>
    rw [List.mem_cons, not_or] at h
    have hlen : ∀ b : Byte, (before ++ [b]).length + s.length = before.length + (c :: s).length := by
      intro b
      rw [List.length_append, List.length_singleton, List.length_cons, Nat.add_right_comm,
        Nat.add_assoc]
    have hlong : intMax < before.length → intMax < before.length + (c :: s).length :=
      fun hlt => hlt.trans_le (Nat.le_add_right _ _)
    refine ⟨?_, fun port => ?_⟩
    · rw [List.cons_append, parseLoop, if_neg (Ne.symm h.1), List.foldl_cons, Scan.step]
      by_cases hbefore : intMax < before.length
      · rw [if_pos hbefore, if_pos (hlong hbefore)]
      · rw [if_neg hbefore]
        split
        · rw [(ih h.2 _ _ _).2, hlen]
        · rw [(ih h.2 _ _ _).1, hlen]
    · rw [List.cons_append, portLoop, List.foldl_cons, Scan.step]
      by_cases hbefore : intMax < before.length
      · rw [if_pos hbefore, if_pos (hlong hbefore)]
      · rw [if_neg hbefore]
        dsimp only
        split
        · rw [(ih h.2 _ _ _).2, hlen]
        · rw [(ih h.2 _ _ _).1, hlen]

theorem parseNodes_eq (h : 0 ∉ s) (rest : List Byte) :
    parseNodes (s ++ 0 :: rest) = if intMax < s.length then none
      else (s.foldl Scan.step ⟨[], 0, [], none⟩).finish rest := by
  have hloops := (loops_scan h [] 0 [] rest).1
  rwa [List.length_nil, Nat.zero_add] at hloops

/-- A string that is too long for `i`. -/
theorem parseNodes_long (h : 0 ∉ s) (hlong : intMax < s.length) (rest : List Byte) :
    parseNodes (s ++ 0 :: rest) = none := by
  rw [parseNodes_eq h, if_pos hlong]

/-! ## Staying inside of the string -/

/-- The inner loop runs after an odd number of colons that only digits follow. -/
theorem port_eq_none_iff (s : List Byte) : (s.foldl Scan.step ⟨[], 0, [], none⟩).port = none ↔
    Even ((s.rtakeWhile fun c => isDigit c || c == char ':').count (char ':')) := by
  induction s using List.reverseRecOn with
  | nil => exact iff_of_true rfl (by decide)
  | append_singleton s c ih =>
    rw [List.foldl_append, List.foldl_cons, List.foldl_nil]
    generalize s.foldl Scan.step ⟨[], 0, [], none⟩ = t at ih
    have hcolon : isDigit (char ':') = false := rfl
    by_cases hc : c = char ':'
    · subst hc
      rw [List.rtakeWhile_concat_pos _ _ _ (by simp), List.count_append, List.count_singleton_self,
        Nat.even_add_one, ← ih, Scan.step]
      cases ht : t.port with
      | none => simp
      | some port => simp [hcolon]
    · by_cases hd : isDigit c = true
      · rw [List.rtakeWhile_concat_pos _ _ _ (by simp [hd]), List.count_append,
          List.count_singleton, beq_eq_false_iff_ne.mpr hc, if_neg Bool.false_ne_true, Nat.add_zero,
          ← ih, Scan.step]
        cases ht : t.port with
        | none => simp [hc]
        | some port => simp [hd]
      · rw [List.rtakeWhile_concat_neg _ _ _ (by simp [hd, hc]), Scan.step]
        cases ht : t.port with
        | none => simp [hc]
        | some port => simp [hd]

/-- Every byte that `parseNodes` touches belongs to the string, the null character at its
end included, exactly when the string fits `i` and its last digits and colons are such
that the inner loop does not end at the null character. -/
theorem parseNodes_inside (h : 0 ∉ s) : (parseNodes (s ++ [0])).isSome ↔ s.length ≤ intMax ∧
    Even ((s.rtakeWhile fun c => isDigit c || c == char ':').count (char ':')) := by
  rw [parseNodes_eq h, ← port_eq_none_iff]
  split
  · rename_i hlong
    exact iff_of_false (by simp) fun he => absurd he.1 (not_le.mpr hlong)
  · rename_i hfits
    rw [Scan.finish, and_iff_right (not_lt.mp hfits)]
    split
    · rename_i hport
      exact iff_of_true rfl hport
    · rename_i port hport
      rw [parseLoop, hport]
      simp

theorem parseNodes_inside_newline :
    (parseNodes ("a:1\n".toList.map char ++ [0])).isSome :=
  (parseNodes_inside (by decide)).mpr (by decide)

/-- `a:1` with no newline: the inner loop ends at the null character, and the outer one
goes on behind it. -/
theorem parseNodes_outside : parseNodes ("a:1".toList.map char ++ [0]) = none := by decide

/-! ## The servers of a line -/

structure Server where
  host : List Byte
  port : Nat
  ne_nil : host ≠ []
  plain : ∀ c ∈ host, c ≠ char ':' ∧ c ≠ 0
  small : port ≤ 65535

/-- `host:port`. -/
def Server.entry (server : Server) : List Byte :=
  server.host ++ char ':' :: (decimal server.port).map digitByte

def environmentLine (servers : List Server) : List Byte :=
  [char ','].intercalate (servers.map Server.entry) ++ [char '\n']

variable {nodes ns : List ServerNode} {before more : List Byte} {servers : List Server}

theorem Server.zero_not_mem (server : Server) : 0 ∉ server.entry := by
  intro h
  rcases List.mem_append.mp h with h | h
  · exact (server.plain 0 h).2 rfl
  · rcases List.mem_cons.mp h with h | h
    · exact absurd h (by decide)
    · obtain ⟨d, hd, he⟩ := List.mem_map.mp h
      exact (digitByte_spec (decimal_lt hd)).2.1 he

theorem environmentLine_cons (server next : Server) (servers : List Server) :
    environmentLine (server :: next :: servers) =
      server.entry ++ [char ','] ++ environmentLine (next :: servers) := by
  simp [environmentLine, List.intercalate_cons_cons]

theorem environmentLine_singleton (server : Server) :
    environmentLine [server] = server.entry ++ [char '\n'] := by
  simp [environmentLine]

theorem environmentLine_zero (servers : List Server) : 0 ∉ environmentLine servers := by
  induction servers with
  | nil => decide
  | cons server servers ih =>
    cases servers with
    | nil =>
      rw [environmentLine_singleton, List.mem_append, not_or]
      exact ⟨server.zero_not_mem, by decide⟩
    | cons next servers =>
      rw [environmentLine_cons, List.mem_append, List.mem_append, not_or, not_or]
      exact ⟨⟨server.zero_not_mem, by decide⟩, ih⟩

theorem scan_host {host : List Byte} (h : ∀ c ∈ host, c ≠ char ':') (nodes : List ServerNode)
    (window : Nat) (before : List Byte) :
    host.foldl Scan.step ⟨nodes, window, before, none⟩ = ⟨nodes, window, before ++ host, none⟩ := by
  induction host generalizing before with
  | nil => simp
  | cons c host ih =>
    rw [List.foldl_cons, Scan.step]
    dsimp only
    rw [if_neg (h c List.mem_cons_self), ih (fun c hc => h c (List.mem_cons_of_mem _ hc)),
      List.append_assoc, List.singleton_append]

theorem scan_digits {ds : List Nat} (h : ∀ d ∈ ds, d < 10) (nodes : List ServerNode)
    (window : Nat) (before : List Byte) (port : Word) :
    (ds.map digitByte).foldl Scan.step ⟨nodes, window, before, some port⟩ =
      ⟨nodes, window, before ++ ds.map digitByte, some (value port ds)⟩ := by
  induction ds generalizing before port with
  | nil => simp
  | cons d ds ih =>
    have hd := h d List.mem_cons_self
    rw [List.map_cons, List.foldl_cons, Scan.step]
    dsimp only
    rw [(digitByte_spec hd).1, if_pos rfl, nextVal_digit port hd,
      ih (fun d hd => h d (List.mem_cons_of_mem _ hd)), List.append_assoc, List.singleton_append,
      value_cons]

/-- The nodes found behind `before` read as the servers, whatever follows. -/
structure Found (before : List Byte) (servers : List Server) (ns : List ServerNode)
    (more : List Byte) : Prop where
  read : ∀ rest, ns.map (ServerNode.read (before ++ more ++ rest)) =
    servers.map fun server => (server.host, (server.port : Int))

/-- An entry with the separator after it. -/
theorem scan_entry (server : Server) {sep : Byte} (hsep : isDigit sep = false)
    (nodes : List ServerNode) (before : List Byte) :
    ∃ ns more, Found before [server] ns more ∧
      (server.entry ++ [sep]).foldl Scan.step ⟨nodes, before.length, before, none⟩ =
        ⟨nodes ++ ns, (before ++ more).length, before ++ more, none⟩ := by
  refine ⟨[⟨before.length, (server.port : Word)⟩],
    server.host ++ 0 :: ((decimal server.port).map digitByte ++ [sep]), ⟨fun rest => ?_⟩, ?_⟩
  · have hport : ((server.port : Word)).toInt = server.port := by
      have hsmall := server.small
      rw [BitVec.toInt_eq_toNat_of_lt] <;> simp <;> omega
    have hhost : ∀ c ∈ server.host, decide (c ≠ 0) = true := fun c hc =>
      decide_eq_true (server.plain c hc).2
    rw [List.map_singleton, List.map_singleton, ServerNode.read, List.append_assoc, List.drop_left,
      List.append_assoc, List.takeWhile_append_of_pos hhost, hport]
    simp
  · have hcolon : Scan.step ⟨nodes, before.length, before ++ server.host, none⟩ (char ':') =
        ⟨nodes, before.length, before ++ server.host ++ [0], some 0⟩ := by
      simp [Scan.step]
    rw [Server.entry, List.append_assoc, List.cons_append, List.foldl_append,
      scan_host fun c hc => (server.plain c hc).1, List.foldl_cons, hcolon, List.foldl_append,
      scan_digits fun d hd => decimal_lt hd, value_decimal_word, List.foldl_cons, List.foldl_nil,
      Scan.step]
    dsimp only
    rw [hsep, if_neg Bool.false_ne_true]
    simp [Nat.add_assoc]

theorem scan_line (servers : List Server) (nodes : List ServerNode) (before : List Byte) :
    ∃ ns more window, Found before servers ns more ∧
      (environmentLine servers).foldl Scan.step ⟨nodes, before.length, before, none⟩ =
        ⟨nodes ++ ns, window, before ++ more, none⟩ := by
  induction servers generalizing nodes before with
  | nil => exact ⟨[], [char '\n'], before.length, ⟨fun _ => rfl⟩, by rw [List.append_nil]; rfl⟩
  | cons server servers ih =>
    cases servers with
    | nil =>
      have hsep : isDigit (char '\n') = false := rfl
      obtain ⟨ns, more, hfound, hscan⟩ := scan_entry server hsep nodes before
      exact ⟨ns, more, _, hfound, by rw [environmentLine_singleton, hscan]⟩
    | cons next servers =>
      have hsep : isDigit (char ',') = false := rfl
      obtain ⟨ns, more, hfound, hscan⟩ := scan_entry server hsep nodes before
      obtain ⟨ns', more', window, hfound', hscan'⟩ := ih (nodes ++ ns) (before ++ more)
      refine ⟨ns ++ ns', more ++ more', window, ⟨fun rest => ?_⟩, ?_⟩
      · have hread := hfound.read (more' ++ rest)
        have hread' := hfound'.read rest
        rw [← List.append_assoc] at hread
        rw [List.map_append, List.map_cons, ← List.append_assoc, hread, hread']
        rfl
      · rw [environmentLine_cons, List.foldl_append, hscan, hscan', List.append_assoc,
          List.append_assoc]

/-- The servers of a line are found again, each under its own host once all terminators are
written, exactly when the line is short enough for `i`. -/
theorem parseNodes_line (servers : List Server) :
    (parseNodes (environmentLine servers ++ [0])).map
        (fun result => result.1.map (ServerNode.read result.2)) =
      some (servers.map fun server => (server.host, (server.port : Int))) ↔
    (environmentLine servers).length ≤ intMax := by
  rw [parseNodes_eq (environmentLine_zero servers)]
  split
  · rename_i hlong
    exact iff_of_false (Option.some_ne_none _).symm (not_le.mpr hlong)
  · rename_i hfits
    refine iff_of_true ?_ (not_lt.mp hfits)
    obtain ⟨ns, more, window, hfound, hscan⟩ := scan_line servers [] []
    rw [List.length_nil] at hscan
    rw [hscan, Scan.finish, Option.map_some]
    exact congrArg some (hfound.read [0])

/-- A host whose name alone is too long. -/
theorem exists_long_host (n : Nat) (h : intMax < n) (hpos : n ≠ 0) : ∃ server : Server,
    server.host = List.replicate n (char 'a') ∧ server.port = 80 ∧
      parseNodes (environmentLine [server] ++ [0]) = none := by
  have hplain : ∀ c ∈ List.replicate n (char 'a'), c ≠ char ':' ∧ c ≠ 0 := by
    intro c hc
    rw [List.eq_of_mem_replicate hc]
    decide
  refine ⟨⟨List.replicate n (char 'a'), 80, by simpa using hpos, hplain, by decide⟩, rfl, rfl, ?_⟩
  refine parseNodes_long (environmentLine_zero _) ?_ []
  rw [environmentLine_singleton, Server.entry, List.append_assoc, List.length_append,
    List.length_replicate]
  exact h.trans_le (Nat.le_add_right _ _)

/-- One server with a name of `2 ^ 31` letters. -/
theorem parseNodes_line_long : ∃ server : Server,
    server.host = List.replicate (2 ^ 31) (char 'a') ∧ server.port = 80 ∧
      parseNodes (environmentLine [server] ++ [0]) = none :=
  exists_long_host (2 ^ 31) (by decide) (by decide)

end ConcurrentComputing.Environment
