import Opsense.Storage.Replay

/-!
# The bytes of the log

`mutate` appends an operation to `wal.log` as a line of JSON, and `open` reads the file as text, line by line. `serde_json` is
not part of the repository: it is `Json`, and what the log relies on is `Json.Lawful`. A log that was cut between two lines is
read as the operations before the cut, and goes on with the operations appended then. A log that was cut inside a line is not
read (`torn_log_iff`).
-/

namespace Opsense

/-- `serde_json` as the log uses it. -/
structure Json where
  to_string : WalOp → String
  from_str : List Char → Except String WalOp
  /-- The number under the key `seq` of a JSON value. -/
  seq_of : List Char → Option Nat

inductive StorageError where
  | branchOutOfRange (id : Nat)
  | internal (msg : String)
deriving DecidableEq, Repr

namespace Wal

/-- The header that `wal_head` writes. -/
def header (seq : Nat) : String := "\x7b\"seq\":" ++ toString seq ++ "\x7d"

/-- The texts of the lines. -/
def texts (json : Json) (w : Wal) : List String := (w.seq.map header).toList ++ w.ops.map json.to_string

/-- The bytes of a line. -/
def line (text : String) : Bytes := intoBytes text ++ intoBytes "\n"

/-- The bytes of the file. -/
def bytes (json : Json) (w : Wal) : Bytes := (w.texts json).flatMap line

/-- The operations of the lines, after the header if there is one. -/
def parse (json : Json) : List (List Char) → Except String Wal
  | [] => .ok ⟨none, []⟩
  | l :: ls =>
    match json.seq_of l with
    | some seq => (ls.mapM json.from_str).map fun ops => ⟨some seq, ops⟩
    | none => ((l :: ls).mapM json.from_str).map fun ops => ⟨none, ops⟩

/-- The log with one more operation at its end. -/
def append (w : Wal) (more : List WalOp) : Wal := { w with ops := w.ops ++ more }

/-- The log that the first lines make up. -/
def firstLines (w : Wal) (n : Nat) : Wal :=
  match w.seq, n with
  | none, n => ⟨none, w.ops.take n⟩
  | some _, 0 => ⟨none, []⟩
  | some seq, n + 1 => ⟨some seq, w.ops.take n⟩

/-- How many of the lines are wholly in the bytes. -/
def contained : List String → Bytes → Nat
  | [], _ => 0
  | t :: ts, file => if line t <+: file then contained ts (file.drop (line t).length) + 1 else 0

end Wal

/-- What the log relies on of `serde_json`, for the operations `P`. They are read back, and none is a header. A line has no end
inside and is not blank. A text that a value is cut off from is no value, and neither is a value with another one behind it. -/
structure Json.Lawful (json : Json) (P : WalOp → Prop) : Prop where
  reads : ∀ op, P op → json.from_str (json.to_string op).toList = .ok op
  no_header : ∀ op, P op → json.seq_of (json.to_string op).toList = none
  reads_header : ∀ seq < 2 ^ 64, json.seq_of (Wal.header seq).toList = some seq
  one_line : ∀ op, P op → '\n' ∉ (json.to_string op).toList ∧ '\r' ∉ (json.to_string op).toList
  not_blank : ∀ op, P op → ∃ c rest, (json.to_string op).toList = c :: rest ∧ isWhitespace c = false
  cut_off : ∀ text : String, ((∃ op, P op ∧ text = json.to_string op) ∨ ∃ seq, text = Wal.header seq) →
    ∀ part, part <+: text.toList → part ≠ text.toList → json.seq_of part = none ∧ ∃ e, json.from_str part = .error e
  trailing : ∀ text : String, ((∃ op, P op ∧ text = json.to_string op) ∨ ∃ seq, text = Wal.header seq) → ∀ op, P op →
    json.seq_of (text.toList ++ (json.to_string op).toList) = none ∧
      ∃ e, json.from_str (text.toList ++ (json.to_string op).toList) = .error e

namespace Inner

/-- `Inner::open` on the bytes of the log. -/
def openBytes (json : Json) (tables : Option Inner) (ts_manifest : List DeltaFile) (files : DeltaFile → Option (List Row))
    (file : Bytes) : Except StorageError Inner :=
  match fromUtf8 file with
  | none => .error (.internal "stream did not contain valid UTF-8")
  | some text =>
    match Wal.parse json ((lines text).filter fun l => trim l ≠ []) with
    | .error e => .error (.internal e)
    | .ok wal => .ok (open' ⟨tables, wal⟩ ts_manifest files)

end Inner

namespace Wal

variable {json : Json} {P : WalOp → Prop}

/-- The texts of the lines of a log, as the bytes are read. -/
theorem bytes_eq (texts : List String) : texts.flatMap line = intoBytes (String.join (texts.map fun t => t ++ "\n")) := by
  induction texts with
  | nil => rfl
  | cons t texts ih => rw [List.flatMap_cons, ih, List.map_cons, String.join_cons, line, intoBytes_append, intoBytes_append]

theorem toList_join (texts : List String) : (String.join (texts.map fun t => t ++ "\n")).toList =
    (texts.map String.toList).flatMap fun t => t ++ ['\n'] := by
  induction texts with
  | nil => rfl
  | cons t texts ih => rw [List.map_cons, String.join_cons, String.toList_append, ih]; simp

theorem texts_append (w : Wal) (more : List WalOp) : (w.append more).texts json = w.texts json ++ more.map json.to_string := by
  simp [texts, append]

theorem texts_firstLines (w : Wal) (n : Nat) : (w.firstLines n).texts json = (w.texts json).take n := by
  obtain ⟨seq, ops⟩ := w
  cases seq with
  | none => simp [texts, firstLines, List.map_take]
  | some seq =>
    cases n with
    | zero => rfl
    | succ n => simp [texts, firstLines, List.map_take]

theorem mem_firstLines {w : Wal} {n : Nat} {op : WalOp} (h : op ∈ (w.firstLines n).ops) : op ∈ w.ops := by
  obtain ⟨seq, ops⟩ := w
  cases seq with
  | none => exact List.mem_of_mem_take h
  | some seq =>
    cases n with
    | zero => cases h
    | succ n => exact List.mem_of_mem_take h

theorem seq_firstLines {w : Wal} {n seq : Nat} (h : seq ∈ (w.firstLines n).seq) : seq ∈ w.seq := by
  obtain ⟨head, ops⟩ := w
  cases head with
  | none => exact h
  | some head =>
    cases n with
    | zero => cases h
    | succ n => exact h

/-- A line of the log is its header or an operation. -/
theorem mem_texts (json : Json) {w : Wal} (hw : ∀ op ∈ w.ops, P op) {t : String} (ht : t ∈ w.texts json) :
    (∃ op, P op ∧ t = json.to_string op) ∨ ∃ seq, t = header seq := by
  rcases List.mem_append.mp ht with hhead | hop
  · obtain ⟨seq, -, rfl⟩ := Option.map_eq_some_iff.mp (Option.mem_toList.mp hhead)
    exact Or.inr ⟨seq, rfl⟩
  · obtain ⟨op, hmem, rfl⟩ := List.mem_map.mp hop
    exact Or.inl ⟨op, hw op hmem, rfl⟩

theorem header_toList (seq : Nat) : (header seq).toList = '\x7b' :: ("\"seq\":".toList ++ Nat.toDigits 10 seq ++ ['\x7d']) := by
  simp [header]

/-- A line has no end inside and does not begin with white space. -/
theorem line_shape (hjson : json.Lawful P) {t : String} (ht : (∃ op, P op ∧ t = json.to_string op) ∨ ∃ seq, t = header seq) :
    '\n' ∉ t.toList ∧ '\r' ∉ t.toList ∧ ∃ c rest, t.toList = c :: rest ∧ isWhitespace c = false := by
  rcases ht with ⟨op, hop, rfl⟩ | ⟨seq, rfl⟩
  · exact ⟨(hjson.one_line op hop).1, (hjson.one_line op hop).2, hjson.not_blank op hop⟩
  · rw [header_toList]
    have hdigit : ∀ c : Char, c.isDigit = false → c ∉ Nat.toDigits 10 seq := by
      intro c hc hmem
      rw [Nat.isDigit_of_mem_toDigits (by decide) (by decide) hmem] at hc
      cases hc
    refine ⟨?_, ?_, _, _, rfl, by decide⟩
    · simpa using hdigit '\n' (by decide)
    · simpa using hdigit '\r' (by decide)

theorem trim_ne_nil {c : Char} {rest : List Char} (hc : isWhitespace c = false) : trim (c :: rest) ≠ [] := by
  unfold trim
  rw [List.dropWhile_cons_of_neg (by simp [hc])]
  intro hnil
  have hall := List.dropWhile_eq_nil_iff.mp (List.reverse_eq_nil_iff.mp hnil) c (by simp)
  rw [hc] at hall
  cases hall

/-- The lines that are read of ended lines and a last one without its end. -/
theorem lines_read (hjson : json.Lawful P) {ts : List String}
    (hts : ∀ t ∈ ts, (∃ op, P op ∧ t = json.to_string op) ∨ ∃ seq, t = header seq) (rest : List Char) :
    (lines ((String.join (ts.map fun t => t ++ "\n")).toList ++ rest)).filter (fun l => trim l ≠ []) =
      ts.map String.toList ++ (lines rest).filter fun l => trim l ≠ [] := by
  have hshape : ∀ l ∈ ts.map String.toList, '\n' ∉ l ∧ '\r' ∉ l ∧ trim l ≠ [] := by
    intro l hl
    obtain ⟨t, ht, rfl⟩ := List.mem_map.mp hl
    obtain ⟨hn, hr, c, tail, heq, hc⟩ := line_shape hjson (hts t ht)
    exact ⟨hn, hr, heq ▸ trim_ne_nil hc⟩
  rw [toList_join, lines_append _ (fun l hl => (hshape l hl).1) fun l hl => (hshape l hl).2.1, List.filter_append,
    List.filter_eq_self.mpr fun l hl => decide_eq_true (hshape l hl).2.2]

theorem mapM_reads (hjson : json.Lawful P) {ops : List WalOp} (hops : ∀ op ∈ ops, P op) :
    (ops.map fun op => (json.to_string op).toList).mapM json.from_str = .ok ops := by
  induction ops with
  | nil => rfl
  | cons op ops ih =>
    rw [List.map_cons, List.mapM_cons, hjson.reads op (hops op (by simp)),
      ih fun op hop => hops op (List.mem_cons_of_mem _ hop)]
    rfl

/-- The lines of a log are read as the log. -/
theorem parse_texts (hjson : json.Lawful P) {w : Wal} (hseq : ∀ seq ∈ w.seq, seq < 2 ^ 64) (hw : ∀ op ∈ w.ops, P op) :
    parse json ((w.texts json).map String.toList) = .ok w := by
  obtain ⟨seq, ops⟩ := w
  have hreads := mapM_reads hjson hw
  cases seq with
  | some seq =>
    have htexts : (texts json ⟨some seq, ops⟩).map String.toList =
        (header seq).toList :: ops.map fun op => (json.to_string op).toList := by simp [texts]
    rw [htexts, parse, hjson.reads_header seq (hseq seq rfl), hreads]
    rfl
  | none =>
    have htexts : (texts json ⟨none, ops⟩).map String.toList = ops.map fun op => (json.to_string op).toList := by simp [texts]
    rw [htexts]
    cases ops with
    | nil => rfl
    | cons op ops =>
      rw [List.map_cons, parse, hjson.no_header op (hw op (by simp))]
      rw [List.map_cons] at hreads
      rw [hreads]
      rfl

/-- A file of whole lines is opened as its log. -/
theorem open_bytes (hjson : json.Lawful P) {w : Wal} (hseq : ∀ seq ∈ w.seq, seq < 2 ^ 64) (hw : ∀ op ∈ w.ops, P op)
    (tables : Option Inner) (ts_manifest : List DeltaFile) (files : DeltaFile → Option (List Row)) :
    Inner.openBytes json tables ts_manifest files (w.bytes json) = .ok (Inner.open' ⟨tables, w⟩ ts_manifest files) := by
  have hlines := lines_read hjson (fun t ht => mem_texts json hw ht) []
  rw [List.append_nil] at hlines
  have hrest : (lines []).filter (fun l => trim l ≠ []) = [] := rfl
  rw [hrest, List.append_nil] at hlines
  unfold Inner.openBytes bytes
  rw [bytes_eq, fromUtf8_intoBytes]
  dsimp only
  rw [hlines, parse_texts hjson hseq hw]

theorem mapM_error {f : List Char → Except String WalOp} (ls : List (List Char)) {l : List Char} {e : String}
    (hl : f l = .error e) : ∃ e, (ls ++ [l]).mapM f = .error e := by
  induction ls with
  | nil => exact ⟨e, by rw [List.nil_append, List.mapM_cons, hl]; rfl⟩
  | cons l' ls ih =>
    obtain ⟨e', ih⟩ := ih
    rw [List.cons_append, List.mapM_cons, ih]
    cases f l' with
    | error e => exact ⟨e, rfl⟩
    | ok op => exact ⟨e', rfl⟩

/-- A last line that is no operation and no header is not read. -/
theorem parse_error (ls : List (List Char)) {l : List Char} {e : String} (hseq : json.seq_of l = none)
    (hl : json.from_str l = .error e) : ∃ e, parse json (ls ++ [l]) = .error e := by
  cases ls with
  | nil =>
    rw [List.nil_append, parse, hseq, List.mapM_cons, hl]
    exact ⟨e, rfl⟩
  | cons l' ls =>
    rw [List.cons_append, parse]
    cases json.seq_of l' with
    | some seq =>
      obtain ⟨e, he⟩ := mapM_error ls hl
      exact ⟨e, by dsimp only; rw [he]; rfl⟩
    | none =>
      obtain ⟨e, he⟩ := mapM_error (l' :: ls) hl
      rw [List.cons_append] at he
      exact ⟨e, by dsimp only; rw [he]; rfl⟩

/-! ## Cuts -/

theorem newline_bytes : intoBytes "\n" = [10] := rfl

/-- A beginning of a file of lines is some whole lines and a beginning of the next one. -/
theorem prefix_cases {ts : List String} {file : Bytes} (h : file <+: ts.flatMap line) :
    ∃ part, file = (ts.take (contained ts file)).flatMap line ++ part ∧
      (part = [] ∨ ∃ t ∈ ts, part <+: intoBytes t ∧ part ≠ []) := by
  induction ts generalizing file with
  | nil => exact ⟨[], by simpa using h, Or.inl rfl⟩
  | cons t ts ih =>
    by_cases hline : line t <+: file
    · obtain ⟨file', rfl⟩ := hline
      have hrest : file' <+: ts.flatMap line := by
        rw [List.flatMap_cons] at h
        exact (List.prefix_append_right_inj _).mp h
      obtain ⟨part, hpart, hcases⟩ := ih hrest
      refine ⟨part, ?_, hcases.imp id fun ⟨t', ht', hp⟩ => ⟨t', List.mem_cons_of_mem _ ht', hp⟩⟩
      rw [contained, if_pos (List.prefix_append _ _), List.drop_left, List.take_succ_cons, List.flatMap_cons,
        List.append_assoc, ← hpart]
    · refine ⟨file, by rw [contained, if_neg hline]; rfl, ?_⟩
      by_cases hnil : file = []
      · exact Or.inl hnil
      · refine Or.inr ⟨t, by simp, ?_, hnil⟩
        rw [List.flatMap_cons] at h
        have hfile : file <+: line t :=
          (List.prefix_or_prefix_of_prefix h (List.prefix_append _ _)).resolve_right hline
        rcases List.prefix_concat_iff.mp hfile with heq | hpart
        · exact absurd (heq ▸ List.prefix_refl _) hline
        · exact hpart

/-- Whole lines contain themselves. -/
theorem contained_take {ts : List String} {n : Nat} (hn : n ≤ ts.length) : contained ts ((ts.take n).flatMap line) = n := by
  induction ts generalizing n with
  | nil => exact (Nat.le_zero.mp hn).symm
  | cons t ts ih =>
    cases n with
    | zero =>
      refine if_neg fun hpre => ?_
      have hempty : line t = [] := List.prefix_nil.mp hpre
      simp [line, newline_bytes] at hempty
    | succ n =>
      rw [List.take_succ_cons, List.flatMap_cons, contained, if_pos (List.prefix_append _ _), List.drop_left,
        ih (Nat.le_of_succ_le_succ hn)]

/-- The file is cut between two lines: it ends with the end of one, or is empty. -/
def CutBetween (json : Json) (w : Wal) (file : Bytes) : Prop :=
  ∃ n ≤ (w.texts json).length, file = ((w.texts json).take n).flatMap line

/-- Opening the file gives the state after the operations whose lines are wholly in it, and operations appended to the file
are found when it is opened again. -/
def Recovers (json : Json) (P : WalOp → Prop) (tables : Option Inner) (ts_manifest : List DeltaFile)
    (files : DeltaFile → Option (List Row)) (w : Wal) (file : Bytes) : Prop :=
  let found := w.firstLines (contained (w.texts json) file)
  Inner.openBytes json tables ts_manifest files file = .ok (Inner.open' ⟨tables, found⟩ ts_manifest files) ∧
  ∀ more : List WalOp, (∀ op ∈ more, P op) →
    Inner.openBytes json tables ts_manifest files (file ++ (more.map json.to_string).flatMap line) =
      .ok (Inner.open' ⟨tables, found.append more⟩ ts_manifest files)

section Torn

variable (hjson : json.Lawful P) {tables : Option Inner} {ts_manifest : List DeltaFile}
  {files : DeltaFile → Option (List Row)}

include hjson

/-- A file whose last line is no operation is not opened. -/
theorem open_error {ts : List String} (hts : ∀ t ∈ ts, (∃ op, P op ∧ t = json.to_string op) ∨ ∃ seq, t = header seq)
    {rest l : List Char} (hrest : (lines rest).filter (fun l => trim l ≠ []) = [l]) {e : String} (hseq : json.seq_of l = none)
    (hl : json.from_str l = .error e) {file : Bytes}
    (hfile : fromUtf8 file = some ((String.join (ts.map fun t => t ++ "\n")).toList ++ rest)) (inner : Inner) :
    Inner.openBytes json tables ts_manifest files file ≠ .ok inner := by
  obtain ⟨e, he⟩ := parse_error (ts.map String.toList) hseq hl
  unfold Inner.openBytes
  rw [hfile]
  dsimp only
  rw [lines_read hjson hts, hrest, he]
  exact nofun

/-- A part of a line is not read, and when it is a whole line but for its end, an operation appended to it is not read. -/
theorem not_recovers (hP : ∃ op, P op) {w : Wal} (hw : ∀ op ∈ w.ops, P op) {file : Bytes} (part : Bytes)
    (hfile : file = ((w.texts json).take (contained (w.texts json) file)).flatMap line ++ part) {t : String}
    (ht : t ∈ w.texts json) (hpart : part <+: intoBytes t) (hne : part ≠ []) :
    ¬Recovers json P tables ts_manifest files w file := by
  rintro ⟨hopen, hmore⟩
  generalize contained (w.texts json) file = n at hfile hopen hmore
  have hts : ∀ t ∈ (w.texts json).take n, (∃ op, P op ∧ t = json.to_string op) ∨ ∃ seq, t = header seq :=
    fun t ht => mem_texts json hw (List.mem_of_mem_take ht)
  obtain ⟨hn, hr, c, tail, hc, hwhite⟩ := line_shape hjson (mem_texts json hw ht)
  cases htext : fromUtf8 file with
  | none =>
    unfold Inner.openBytes at hopen
    rw [htext] at hopen
    cases hopen
  | some text =>
    -- the part is text as well, and begins as the line does
    have hbytes := fromUtf8_eq_some.mp htext
    rw [hfile, bytes_eq] at hbytes
    obtain ⟨u, htail, hu⟩ := prefix_of_intoBytes hbytes
    obtain ⟨missing, hmissing⟩ := hpart
    rw [hu] at hmissing
    obtain ⟨v, rfl, -⟩ := prefix_of_intoBytes hmissing
    rw [String.toList_append] at hn hr hc
    have hune : u.toList ≠ [] := by
      intro hnil
      have hu' : u = "" := String.toList_injective hnil
      rw [hu'] at hu
      exact hne hu
    obtain ⟨d, rest, hd⟩ := List.exists_cons_of_ne_nil hune
    have hdc : d = c := by
      rw [hd, List.cons_append] at hc
      exact (List.cons.inj hc).1
    have hlines : (lines u.toList).filter (fun l => trim l ≠ []) = [u.toList] := by
      have hun : '\n' ∉ u.toList := fun h => hn (List.mem_append_left _ h)
      rw [lines, splitInclusive_last hun hune, List.map_singleton, stripEnd_last hun, List.filter_singleton,
        decide_eq_true (hd ▸ trim_ne_nil (hdc ▸ hwhite))]
      rfl
    have hfile' : fromUtf8 file = some ((String.join (((w.texts json).take n).map fun t => t ++ "\n")).toList ++ u.toList) := by
      rw [htext, ← String.toList_append, ← htail, String.toList_ofList]
    by_cases hv : v = ""
    · -- the line lacks its end only
      obtain ⟨op, hop⟩ := hP
      subst hv
      rw [String.append_empty] at ht
      rw [← String.toList_append, String.append_empty] at hn hr
      have hmore := hmore [op] fun op' hop' => List.mem_singleton.mp hop' ▸ hop
      obtain ⟨hseq, e, hl⟩ := hjson.trailing u (mem_texts json hw ht) op hop
      have hshape := line_shape hjson (Or.inl ⟨op, hop, rfl⟩)
      have hjoined : (lines ((u.toList ++ (json.to_string op).toList) ++ ['\n'])).filter (fun l => trim l ≠ []) =
          [u.toList ++ (json.to_string op).toList] := by
        have hended := lines_append [u.toList ++ (json.to_string op).toList] (by simp [hn, hshape.1])
          (by simp [hr, hshape.2.1]) []
        have hblank : trim (u.toList ++ (json.to_string op).toList) ≠ [] := by
          rw [hd, List.cons_append]
          exact trim_ne_nil (hdc ▸ hwhite)
        rw [List.flatMap_singleton, List.append_nil] at hended
        rw [hended]
        simp [lines, splitInclusive, hblank]
      refine open_error hjson hts hjoined hseq hl ?_ _ hmore
      have hmorebytes : file ++ ([op].map json.to_string).flatMap line =
          intoBytes (String.join (((w.texts json).take n).map fun t => t ++ "\n") ++ u ++ json.to_string op ++ "\n") := by
        rw [hfile, bytes_eq, hu, intoBytes_append, intoBytes_append, intoBytes_append]
        simp [line]
      rw [hmorebytes, fromUtf8_intoBytes]
      simp
    · have hcut : u.toList ≠ (u ++ v).toList := by
        intro heq
        rw [String.toList_append] at heq
        exact hv (String.toList_injective (List.append_right_eq_self.mp heq.symm))
      obtain ⟨hseq, e, hl⟩ := hjson.cut_off _ (mem_texts json hw ht) u.toList
        (by rw [String.toList_append]; exact List.prefix_append _ _) hcut
      exact open_error hjson hts hlines hseq hl hfile' _ hopen

end Torn

/-- A log that was cut anywhere is read back, and goes on with what is appended to it, exactly when it was cut between two
lines. -/
theorem torn_log_iff (json : Json) (P : WalOp → Prop) (hjson : json.Lawful P) (hP : ∃ op, P op) (tables : Option Inner)
    (ts_manifest : List DeltaFile) (files : DeltaFile → Option (List Row)) (w : Wal) (hseq : ∀ seq ∈ w.seq, seq < 2 ^ 64)
    (hw : ∀ op ∈ w.ops, P op) (file : Bytes) (hfile : file <+: w.bytes json) :
    Recovers json P tables ts_manifest files w file ↔ CutBetween json w file := by
  constructor
  · intro hrec
    obtain ⟨part, hpart, hcases⟩ := prefix_cases hfile
    rcases hcases with rfl | ⟨t, ht, hp, hne⟩
    · refine ⟨min (contained (w.texts json) file) (w.texts json).length, min_le_right _ _, ?_⟩
      rw [← List.take_eq_take_min, ← List.append_nil (List.flatMap _ _)]
      exact hpart
    · exact absurd hrec (not_recovers hjson hP hw _ hpart ht hp hne)
  · rintro ⟨n, hn, rfl⟩
    have hops : ∀ op ∈ (w.firstLines n).ops, P op := fun op hop => hw op (mem_firstLines hop)
    have hseqs : ∀ seq ∈ (w.firstLines n).seq, seq < 2 ^ 64 := fun seq h => hseq seq (seq_firstLines h)
    have hbytes : ((w.texts json).take n).flatMap line = (w.firstLines n).bytes json := by
      rw [bytes, texts_firstLines]
    unfold Recovers
    dsimp only
    rw [contained_take hn, hbytes]
    refine ⟨open_bytes hjson hseqs hops tables ts_manifest files, fun more hmore => ?_⟩
    have happend : (w.firstLines n).bytes json ++ (more.map json.to_string).flatMap line =
        ((w.firstLines n).append more).bytes json := by
      rw [bytes, bytes, texts_append, List.flatMap_append]
    rw [happend]
    refine open_bytes (w := (w.firstLines n).append more) hjson hseqs (fun op hop => ?_) tables ts_manifest files
    rcases List.mem_append.mp hop with h | h
    · exact hops op h
    · exact hmore op h

/-! ## A log of one operation -/

/-- The JSON of the operation `Counter { next: 2 }`. -/
def counterText : String := "\x7b\"Counter\":\x7b\"next\":2\x7d\x7d"

/-- `serde_json` on headers and this operation. -/
def counterJson : Json where
  to_string := fun _ => counterText
  from_str := fun text => if text = counterText.toList then .ok (.counter 2) else .error "EOF while parsing an object"
  seq_of := fun text => (parseU64 (text.filter Char.isDigit)).bind fun seq => if text = (header seq).toList then some seq else none

theorem counterJson_seq {text : List Char} {seq : Nat} (h : counterJson.seq_of text = some seq) : text = (header seq).toList := by
  obtain ⟨n, -, hn⟩ := Option.bind_eq_some_iff.mp h
  split_ifs at hn with htext
  exact Option.some.inj hn ▸ htext

/-- A header ends with its only closing brace. -/
theorem header_concat (seq : Nat) : ∃ body, (header seq).toList = body ++ ['\x7d'] ∧ '\x7d' ∉ body := by
  refine ⟨'\x7b' :: ("\"seq\":".toList ++ Nat.toDigits 10 seq), by rw [header_toList]; simp, fun hmem => ?_⟩
  have hdigits : '\x7d' ∈ Nat.toDigits 10 seq := by simpa using hmem
  have hdigit := Nat.isDigit_of_mem_toDigits (by decide) (by decide) hdigits
  exact absurd hdigit (by decide)

theorem counterText_ne_header (seq : Nat) (rest rest' : List Char) :
    counterText.toList ++ rest ≠ (header seq).toList ++ rest' := by
  rw [header_toList]
  intro h
  have := congrArg (fun l => l[2]?) h
  simp [counterText] at this

theorem brace_mem_counterText : '\x7d' ∈ counterText.toList := by decide

/-- Nothing that a header ends behind is a part of it. -/
theorem header_part {part : List Char} {n seq : Nat} (hpart : part <+: (header seq).toList) (hn : part = (header n).toList) :
    part = (header seq).toList := by
  obtain ⟨body, hbody, hnot⟩ := header_concat seq
  obtain ⟨body', hbody', -⟩ := header_concat n
  rw [hbody] at hpart ⊢
  refine (List.prefix_concat_iff.mp hpart).resolve_right fun hin => hnot (hin.subset ?_)
  rw [hn, hbody']
  simp

theorem counterJson_seq_none {text : List Char} (h : ∀ seq, text ≠ (header seq).toList) : counterJson.seq_of text = none :=
  Option.eq_none_iff_forall_ne_some.mpr fun seq hseq => h seq (counterJson_seq hseq)

theorem counterJson_lawful : counterJson.Lawful fun op => op = .counter 2 where
  reads := by
    rintro op rfl
    rfl
  no_header := by
    rintro op rfl
    refine counterJson_seq_none fun seq heq => counterText_ne_header seq [] [] ?_
    rw [List.append_nil, List.append_nil]
    exact heq
  reads_header := by
    intro seq hlt
    have hfilter : (header seq).toList.filter Char.isDigit = Nat.toDigits 10 seq := by
      have hdigits : (Nat.toDigits 10 seq).filter Char.isDigit = Nat.toDigits 10 seq :=
        List.filter_eq_self.mpr fun c hc => Nat.isDigit_of_mem_toDigits (by decide) (by decide) hc
      rw [header_toList]
      simp [hdigits]
    change (parseU64 ((header seq).toList.filter Char.isDigit)).bind _ = some seq
    rw [hfilter, parseU64_toDigits hlt, Option.bind_some, if_pos rfl]
  one_line := by
    rintro op rfl
    exact ⟨by decide, by decide⟩
  not_blank := by
    rintro op rfl
    exact ⟨_, _, rfl, by decide⟩
  cut_off := by
    intro text htext part hpart hne
    rcases htext with ⟨op, rfl, rfl⟩ | ⟨seq, rfl⟩
    · refine ⟨counterJson_seq_none fun n hn => ?_, _, if_neg hne⟩
      obtain ⟨rest, hrest⟩ := hpart
      rw [hn] at hrest
      exact counterText_ne_header n [] rest (by rw [List.append_nil]; exact hrest.symm)
    · refine ⟨counterJson_seq_none fun n hn => hne (header_part hpart hn), _, if_neg fun heq => ?_⟩
      obtain ⟨rest, hrest⟩ := hpart
      rw [heq] at hrest
      exact counterText_ne_header seq rest [] (by rw [List.append_nil]; exact hrest)
  trailing := by
    rintro text htext op rfl
    have hbrace : '\x7d' ∈ text.toList := by
      rcases htext with ⟨op, rfl, rfl⟩ | ⟨seq, rfl⟩
      · exact brace_mem_counterText
      · obtain ⟨body, hbody, -⟩ := header_concat seq
        rw [hbody]
        simp
    refine ⟨counterJson_seq_none fun n hn => ?_, _, if_neg fun heq => ?_⟩
    · obtain ⟨body, hbody, hnot⟩ := header_concat n
      have hsplit : (counterJson.to_string (.counter 2)).toList = counterText.toList.dropLast ++ ['\x7d'] := by decide
      rw [hbody, hsplit, ← List.append_assoc] at hn
      exact hnot ((List.append_inj_left' hn rfl) ▸ List.mem_append_left _ hbrace)
    · have hnil : text.toList = [] := List.append_left_eq_self.mp heq
      rw [hnil] at hbrace
      cases hbrace

/-- The log after a checkpoint and one operation. -/
def oneOperation : Wal := ⟨some 1, [.counter 2]⟩

/-- Cut after the header. -/
theorem torn_log_iff_oneOperation :
    Recovers counterJson (fun op => op = .counter 2) none [] (fun _ => none) oneOperation (line (header 1)) :=
  (torn_log_iff counterJson (fun op => op = .counter 2) counterJson_lawful ⟨_, rfl⟩ none [] (fun _ => none) oneOperation
    (by rintro seq hseq; obtain rfl := Option.some.inj hseq; decide) (by simp [oneOperation])
    (line (header 1)) ⟨line counterText, by simp [oneOperation, bytes, texts, counterJson]⟩).mpr
    ⟨1, by decide, by simp [oneOperation, texts]⟩

/-- Cut before the end of the last line. -/
theorem unended_line_lost :
    ¬Recovers counterJson (fun op => op = .counter 2) none [] (fun _ => none) oneOperation
      (line (header 1) ++ intoBytes counterText) := by
  refine not_recovers counterJson_lawful ⟨_, rfl⟩ (by simp [oneOperation]) (intoBytes counterText)
    (by decide +kernel) (t := counterText) (by simp [oneOperation, texts, counterJson]) (List.prefix_refl _) (by decide)

end Wal

end Opsense
