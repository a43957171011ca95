import LlmCacheProxy.Foundation.Json
import LlmCacheProxy.Foundation.UriComponent

/-!
# Plain TOML

The part of TOML that a program writes which prints one key to a line: comments,
headers of tables, and keys with an integer or with a string that needs no
escape. A document is known by the tables and the values that its lines declare.
-/

namespace Toml

/-- Bytes of a key without quotes. -/
def isKeyByte (b : UInt8) : Bool :=
  (0x41 ≤ b.toNat && b.toNat ≤ 0x5A) || (0x61 ≤ b.toNat && b.toNat ≤ 0x7A) ||
    (0x30 ≤ b.toNat && b.toNat ≤ 0x39) || b = 0x2D || b = 0x5F

/-- Bytes that are not control characters; a tab is allowed. -/
def isPrintable (b : UInt8) : Bool := (0x20 ≤ b.toNat && b ≠ 0x7F) || b = 0x09

theorem isPrintable_of_isKeyByte {b : UInt8} (h : isKeyByte b = true) : isPrintable b = true := by
  simp only [isKeyByte, Bool.or_eq_true, Bool.and_eq_true, decide_eq_true_eq] at h
  have hprintable : 0x20 ≤ b.toNat ∧ b ≠ 0x7F := by
    rcases h with (((h | h) | h) | rfl) | rfl
    · exact ⟨by omega, by rintro rfl; exact absurd h.2 (by decide)⟩
    · exact ⟨by omega, by rintro rfl; exact absurd h.2 (by decide)⟩
    · exact ⟨by omega, by rintro rfl; exact absurd h.2 (by decide)⟩
    · decide
    · decide
  simp [isPrintable, hprintable.1, hprintable.2]

inductive Value where
  | integer (n : Nat)
  | string (s : Text)
  deriving DecidableEq

inductive Line where
  | blank
  | comment (text : Text)
  | table (name : List Text)
  | entry (key : Text) (value : Value)
  deriving DecidableEq

def BareKey (key : Text) : Prop := key.bytes ≠ [] ∧ ∀ b ∈ key.bytes, isKeyByte b = true

/-- A string is written as it is, and an integer has 64 bits with its sign. -/
def Value.Plain : Value → Prop
  | .integer n => n < 2 ^ 63
  | .string s => ∀ b ∈ s.bytes, isPrintable b = true ∧ b ≠ 0x22 ∧ b ≠ 0x5C

def Line.Plain : Line → Prop
  | .blank => True
  | .comment text => ∀ b ∈ text.bytes, isPrintable b = true
  | .table name => name ≠ [] ∧ ∀ key ∈ name, BareKey key
  | .entry key value => BareKey key ∧ value.Plain

instance (key : Text) : Decidable (BareKey key) :=
  decidable_of_iff (key.bytes ≠ [] ∧ key.bytes.all isKeyByte = true) (by simp [BareKey])

instance (s : Text) : Decidable (Value.string s).Plain :=
  decidable_of_iff (s.bytes.all (fun b => isPrintable b && b ≠ 0x22 && b ≠ 0x5C) = true)
    (by simp [Value.Plain, and_assoc])

/-! ### Printing -/

def Value.bytes : Value → Bytes
  | .integer n => JsonNumber.decimal n
  | .string s => 0x22 :: (s.bytes ++ [0x22])

def Line.bytes : Line → Bytes
  | .blank => []
  | .comment text => 0x23 :: text.bytes
  | .table name => 0x5B :: ([0x2E].intercalate (name.map Text.bytes) ++ [0x5D])
  | .entry key value => key.bytes ++ 0x20 :: 0x3D :: 0x20 :: value.bytes

/-- Every line ends with a line feed. -/
def print (lines : List Line) : Bytes := lines.flatMap fun l => l.bytes ++ [0x0A]

/-! ### Reading -/

/-- What stands in front of a last byte. -/
def behindEnd (last : UInt8) (bs : Bytes) : Option Bytes :=
  if bs.getLast? = some last then some bs.dropLast else none

def readInteger (bs : Bytes) : Option Value :=
  let n := bs.foldl (fun v d => 10 * v + (d.toNat - 0x30)) 0
  if JsonNumber.decimal n = bs ∧ n < 2 ^ 63 then some (.integer n) else none

def readValue : Bytes → Option Value
  | 0x22 :: rest => do
      let s ← behindEnd 0x22 rest
      (Text.ofUtf8? s).map .string
  | bs => readInteger bs

def readEntry (bs : Bytes) : Option Line :=
  match bs.dropWhile isKeyByte with
  | 0x20 :: 0x3D :: 0x20 :: value =>
      if bs.takeWhile isKeyByte = [] then none
      else do
        let key ← Text.ofUtf8? (bs.takeWhile isKeyByte)
        (readValue value).map (.entry key)
  | _ => none

def readLine : Bytes → Option Line
  | [] => some .blank
  | 0x23 :: rest => (Text.ofUtf8? rest).map .comment
  | 0x5B :: rest => do
      let name ← behindEnd 0x5D rest
      ((name.splitOn 0x2E).mapM Text.ofUtf8?).map .table
  | bs => readEntry bs

/-- The line behind the last line feed is empty. -/
def read (bs : Bytes) : Option (List Line) := (bs.splitOn 0x0A).dropLast.mapM readLine

/-! ### What is printed is read -/

theorem ofUtf8?_bytes (t : Text) : Text.ofUtf8? t.bytes = some t := Text.ofUtf8?_eq_some.mpr rfl

@[simp] theorem behindEnd_concat (last : UInt8) (bs : Bytes) :
    behindEnd last (bs ++ [last]) = some bs := by
  simp [behindEnd]

theorem mapM_ofUtf8?_bytes (ts : List Text) :
    ts.mapM (Text.ofUtf8? ∘ Text.bytes) = some ts := by
  induction ts with
  | nil => rfl
  | cons t ts ih => simp [List.mapM_cons, ih, ofUtf8?_bytes]

theorem readValue_decimal {n : Nat} (h : n < 2 ^ 63) :
    readValue (JsonNumber.decimal n) = some (.integer n) := by
  have hread : readInteger (JsonNumber.decimal n) = some (.integer n) := by
    rw [readInteger, JsonNumber.foldl_decimal, if_pos ⟨rfl, h⟩]
  have hquote : ∀ rest, JsonNumber.decimal n ≠ 0x22 :: rest := by
    intro rest heq
    have hdigit := JsonNumber.digits_decimal n 0x22 (heq ▸ List.mem_cons_self ..)
    exact absurd hdigit.1 (by decide)
  unfold readValue
  split
  · rename_i rest heq
    exact absurd heq (hquote rest)
  · exact hread

theorem readValue_bytes {value : Value} (h : value.Plain) : readValue value.bytes = some value := by
  cases value with
  | integer n => exact readValue_decimal h
  | string s => simp [readValue, Value.bytes, ofUtf8?_bytes]

theorem readEntry_bytes {key : Text} {value : Value} (hkey : BareKey key) (hvalue : value.Plain) :
    readEntry (Line.entry key value).bytes = some (.entry key value) := by
  obtain ⟨hne, hbytes⟩ := hkey
  have hspace : isKeyByte 0x20 = false := by decide
  have htake : (Line.entry key value).bytes.takeWhile isKeyByte = key.bytes := by
    rw [Line.bytes, List.takeWhile_append_of_pos hbytes]
    simp [hspace]
  have hdrop : (Line.entry key value).bytes.dropWhile isKeyByte =
      0x20 :: 0x3D :: 0x20 :: value.bytes := by
    rw [Line.bytes, List.dropWhile_append_of_pos hbytes]
    simp [hspace]
  simp [readEntry, htake, hdrop, hne, ofUtf8?_bytes, readValue_bytes hvalue]

/-- Neither a comment nor a header begins with a byte of a key. -/
theorem readLine_of_isKeyByte {b : UInt8} (h : isKeyByte b = true) (bs : Bytes) :
    readLine (b :: bs) = readEntry (b :: bs) := by
  have hcomment : b ≠ 0x23 := by
    rintro rfl
    exact absurd h (by decide)
  have htable : b ≠ 0x5B := by
    rintro rfl
    exact absurd h (by decide)
  simp [readLine, hcomment, htable]

theorem readLine_entry {key : Text} {value : Value} (hkey : BareKey key) (hvalue : value.Plain) :
    readLine (Line.entry key value).bytes = some (.entry key value) := by
  obtain ⟨b, rest, hb⟩ := List.exists_cons_of_ne_nil hkey.1
  have hkeyByte : isKeyByte b = true := hkey.2 b (hb ▸ List.mem_cons_self ..)
  have hentry := readEntry_bytes hkey hvalue
  rw [Line.bytes, hb, List.cons_append] at hentry ⊢
  rw [readLine_of_isKeyByte hkeyByte]
  exact hentry

theorem readLine_bytes {l : Line} (h : l.Plain) : readLine l.bytes = some l := by
  cases l with
  | blank => rfl
  | comment text => simp [readLine, Line.bytes, ofUtf8?_bytes]
  | table name =>
      obtain ⟨hne, hkeys⟩ := h
      have hdot : ∀ bs ∈ name.map Text.bytes, 0x2E ∉ bs := by
        intro bs hbs hmem
        obtain ⟨key, hkey, rfl⟩ := List.mem_map.mp hbs
        exact absurd ((hkeys key hkey).2 _ hmem) (by decide)
      have hsplit : ([0x2E].intercalate (name.map Text.bytes)).splitOn 0x2E =
          name.map Text.bytes := List.splitOn_intercalate 0x2E hdot (by simpa using hne)
      simp [readLine, Line.bytes, hsplit, mapM_ofUtf8?_bytes]
  | entry key value => exact readLine_entry h.1 h.2

theorem mem_intercalate {α : Type*} {a : α} {sep : List α} {ls : List (List α)}
    (h : a ∈ sep.intercalate ls) : a ∈ sep ∨ ∃ l ∈ ls, a ∈ l := by
  induction ls with
  | nil => cases h
  | cons l ls ih =>
      by_cases hls : ls = []
      · subst hls
        rw [List.intercalate_singleton] at h
        exact .inr ⟨l, List.mem_singleton_self l, h⟩
      · rw [List.intercalate_cons_of_ne_nil hls, List.mem_append, List.mem_append] at h
        rcases h with (h | h) | h
        · exact .inr ⟨l, List.mem_cons_self .., h⟩
        · exact .inl h
        · rcases ih h with h | ⟨l', hl', h⟩
          · exact .inl h
          · exact .inr ⟨l', List.mem_cons_of_mem _ hl', h⟩

theorem lineFeed_not_mem_key {key : Text} (h : BareKey key) : 0x0A ∉ key.bytes :=
  fun hmem => absurd (h.2 _ hmem) (by decide)

theorem lineFeed_not_mem_value {value : Value} (h : value.Plain) : 0x0A ∉ value.bytes := by
  intro hmem
  cases value with
  | integer n => exact absurd (JsonNumber.digits_decimal n _ hmem).1 (by decide)
  | string s =>
      simp only [Value.bytes, List.mem_cons, List.mem_append, List.not_mem_nil, or_false] at hmem
      rcases hmem with heq | hmem | heq
      · exact absurd heq (by decide)
      · exact absurd (h _ hmem).1 (by decide)
      · exact absurd heq (by decide)

theorem lineFeed_not_mem {l : Line} (h : l.Plain) : 0x0A ∉ l.bytes := by
  intro hmem
  cases l with
  | blank => cases hmem
  | comment text =>
      rcases List.mem_cons.mp hmem with heq | hmem
      · exact absurd heq (by decide)
      · exact absurd (h _ hmem) (by decide)
  | table name =>
      simp only [Line.bytes, List.mem_cons, List.mem_append, List.not_mem_nil, or_false] at hmem
      rcases hmem with heq | hmem | heq
      · exact absurd heq (by decide)
      · rcases mem_intercalate hmem with hdot | ⟨bs, hbs, hmem⟩
        · exact absurd (List.mem_singleton.mp hdot) (by decide)
        · obtain ⟨key, hkey, rfl⟩ := List.mem_map.mp hbs
          exact lineFeed_not_mem_key (h.2 key hkey) hmem
      · exact absurd heq (by decide)
  | entry key value =>
      simp only [Line.bytes, List.mem_cons, List.mem_append] at hmem
      rcases hmem with hmem | heq | heq | heq | hmem
      · exact lineFeed_not_mem_key h.1 hmem
      · exact absurd heq (by decide)
      · exact absurd heq (by decide)
      · exact absurd heq (by decide)
      · exact lineFeed_not_mem_value h.2 hmem

/-- What is printed line by line is read line by line. -/
theorem read_print {lines : List Line} (h : ∀ l ∈ lines, l.Plain) :
    read (print lines) = some lines := by
  have hsplit : (print lines).splitOn 0x0A = lines.map Line.bytes ++ [[]] := by
    induction lines with
    | nil => rfl
    | cons l lines ih =>
        rw [print, List.flatMap_cons, List.append_assoc, List.singleton_append,
          List.splitOn_append_cons_self_of_not_mem (lineFeed_not_mem (h l (List.mem_cons_self ..)))]
        rw [List.map_cons, List.cons_append, ← ih fun l' hl' => h l' (List.mem_cons_of_mem _ hl')]
        rfl
  rw [read, hsplit, List.dropLast_concat]
  clear hsplit
  induction lines with
  | nil => rfl
  | cons l lines ih =>
      rw [List.map_cons, List.mapM_cons, readLine_bytes (h l (List.mem_cons_self ..)),
        ih fun l' hl' => h l' (List.mem_cons_of_mem _ hl')]
      rfl

/-! ### Documents -/

/-- The tables that are declared, and the values under their tables. -/
structure Document where
  tables : List (List Text)
  entries : List ((List Text × Text) × Value)

namespace Document

/-- The document of lines that stand behind the header of a table. -/
def ofLines : List Text → List Line → Document
  | _, [] => ⟨[], []⟩
  | table, .blank :: lines => ofLines table lines
  | table, .comment _ :: lines => ofLines table lines
  | _, .table name :: lines =>
      let doc := ofLines name lines
      ⟨name :: doc.tables, doc.entries⟩
  | table, .entry key value :: lines =>
      let doc := ofLines table lines
      ⟨doc.tables, ((table, key), value) :: doc.entries⟩

/-- No table is declared twice, no key has two values, and none is a table too. -/
structure Distinct (doc : Document) : Prop where
  tables : doc.tables.Nodup
  keys : (doc.entries.map Prod.fst).Nodup
  apart : ∀ k ∈ doc.entries.map Prod.fst, ∀ t ∈ doc.tables, ¬ k.1 ++ [k.2] <+: t

def get (doc : Document) (table : List Text) (key : Text) : Option Value :=
  doc.entries.lookup (table, key)

/-- The fields that have a value. -/
def present {κ ν : Type*} (fields : List (κ × Option ν)) : List (κ × ν) :=
  fields.flatMap fun f => f.2.toList.map fun v => (f.1, v)

theorem keys_present {κ ν : Type*} (fields : List (κ × Option ν)) :
    ((present fields).map Prod.fst).Sublist (fields.map Prod.fst) := by
  induction fields with
  | nil => exact .slnil
  | cons f fields ih =>
      obtain ⟨k, v⟩ := f
      cases v with
      | none => exact ih.cons k
      | some v => exact ih.cons_cons k

theorem lookup_present {κ ν : Type*} [BEq κ] [LawfulBEq κ] {fields : List (κ × Option ν)}
    (h : (fields.map Prod.fst).Nodup) (k : κ) :
    (present fields).lookup k = (fields.lookup k).join := by
  induction fields with
  | nil => rfl
  | cons f fields ih =>
      obtain ⟨k', v⟩ := f
      rw [List.map_cons, List.nodup_cons] at h
      have ih := ih h.2
      by_cases hk : k = k'
      · subst hk
        have habsent : (present fields).lookup k = none := by
          rw [List.lookup_eq_none_iff]
          intro p hp
          have hmem := (keys_present fields).subset (List.mem_map_of_mem hp)
          exact bne_iff_ne.mpr fun heq => h.1 (heq ▸ hmem)
        cases v with
        | none => simpa [present] using habsent
        | some v => simp [present]
      · have hne : (k == k') = false := beq_false_of_ne hk
        cases v with
        | none => simpa [present, List.lookup_cons, hne] using ih
        | some v => simpa [present, List.lookup_cons, hne] using ih

end Document

end Toml
