import LlmCacheProxy.Config

/-!
# The configuration that is printed

`--print-config` prints the settings as a file that can be read in their place:
the program that reads it, and nothing else, starts the same server, where the
path of the database survives being printed.
-/

namespace LlmCacheProxy

/-! ### Settings in a document -/

/-- What a document has under a name. -/
inductive Member where
  | missing
  | value (v : Toml.Value)
  | table

def member (doc : Toml.Document) (path : List Text) (key : Text) : Member :=
  match doc.get path key with
  | some v => .value v
  | none => if doc.tables.any fun t => (path ++ [key]).isPrefixOf t then .table else .missing

namespace Member

/-- A field that may be missing, but must have the right type. -/
def text : Member → Option (Option Text)
  | missing => some none
  | value (.string s) => some (some s)
  | _ => none

def u16 : Member → Option (Option UInt16)
  | missing => some none
  | value (.integer n) => if n < 2 ^ 16 then some (some (.ofNat n)) else none
  | _ => none

def u64 : Member → Option (Option UInt64)
  | missing => some none
  | value (.integer n) => if n < 2 ^ 64 then some (some (.ofNat n)) else none
  | _ => none

/-- A table is read with its own fields. -/
def nested {α : Type*} (read : Option α) : Member → Option (Option α)
  | missing => some none
  | table => read.map some
  | value _ => none

end Member

/-- The fields that `serde` derives. Other names are ignored. -/
def FileConfig.ofDocument (doc : Toml.Document) : Option FileConfig := do
  let port ← (member doc [] "port").u16
  let host ← (member doc [] "host").text
  let db ← (member doc [] "db").text
  let ttl ← (member doc [] "ttl").u64
  let timeout ← (member doc [] "timeout").u64
  let bodyLimit ← (member doc [] "body_limit").u64
  let anthropicUpstream ← (member doc [] "anthropic_upstream").text
  let openaiUpstream ← (member doc [] "openai_upstream").text
  let openrouterUpstream ← (member doc [] "openrouter_upstream").text
  let geminiUpstream ← (member doc [] "gemini_upstream").text
  let secretsFile := (member doc ["extensions", "doppel"] "secrets_file").text
  let doppel := (member doc ["extensions"] "doppel").nested (secretsFile.map DoppelConfig.mk)
  let extensions ← (member doc [] "extensions").nested (doppel.map ExtensionsConfig.mk)
  some { port, host, db, ttl, timeout, bodyLimit, anthropicUpstream, openaiUpstream,
         openrouterUpstream, geminiUpstream, extensions }

/-- The library reads plain documents. -/
structure ReadsToml (fromToml : Text → Option FileConfig) : Prop where
  read : ∀ (text : Text) (lines : List Toml.Line), text.bytes = Toml.print lines →
    (∀ l ∈ lines, l.Plain) → (Toml.Document.ofLines [] lines).Distinct →
      fromToml text = FileConfig.ofDocument (.ofLines [] lines)

/-! ### What is printed -/

namespace Cli

variable (dirs : Dirs) (cli : Cli) (fc : Option FileConfig)

def doppelTable : List Text := ["extensions", "doppel"]

def upstreamLine (key : Text) (upstream : Option Text) : Toml.Line :=
  match upstream with
  | some u => .entry key (.string u)
  | none => .comment (" " ++ key ++ " = \"\"")

def secretsLines (secrets : Option Text) : List Toml.Line :=
  match secrets with
  | some p => [.table doppelTable, .entry "secrets_file" (.string p)]
  | none => [.comment " [extensions.doppel]",
      .comment " secrets_file = \"\"  # run: doppel init <path>"]

/-- The printed configuration, line by line. -/
def lines : List Toml.Line :=
  [.entry "port" (.integer cli.port.toNat), .entry "host" (.string cli.host),
    .entry "db" (.string (cli.printedDb dirs)), .entry "ttl" (.integer cli.ttl.toNat),
    .entry "timeout" (.integer cli.timeout.toNat),
    .entry "body_limit" (.integer cli.bodyLimit.toNat),
    upstreamLine "anthropic_upstream" cli.anthropicUpstream,
    upstreamLine "openai_upstream" cli.openaiUpstream,
    upstreamLine "openrouter_upstream" cli.openrouterUpstream,
    upstreamLine "gemini_upstream" cli.geminiUpstream,
    .blank] ++ secretsLines (cli.doppelSecrets fc)

variable {dirs cli fc}

theorem bytes_printUpstream (key : Text) (upstream : Option Text) :
    (printUpstream key upstream).bytes = (upstreamLine key upstream).bytes ++ [0x0A] := by
  cases upstream with
  | some u =>
      have hmid : (Text.ofString " = \"").bytes = [0x20, 0x3D, 0x20, 0x22] := by decide
      have hend : (Text.ofString "\"\n").bytes = [0x22, 0x0A] := by decide
      simp [printUpstream, upstreamLine, Toml.Line.bytes, Toml.Value.bytes, hmid, hend]
  | none =>
      have hfront : (Text.ofString "# ").bytes = [0x23, 0x20] := by decide
      have hspace : (Text.ofString " ").bytes = [0x20] := by decide
      have hend : (Text.ofString " = \"\"\n").bytes =
          (Text.ofString " = \"\"").bytes ++ [0x0A] := by decide
      simp [printUpstream, upstreamLine, Toml.Line.bytes, hfront, hspace, hend]

theorem bytes_integer {key front : Text} (h : front.bytes = key.bytes ++ [0x20, 0x3D, 0x20])
    (n : Nat) : (front ++ decimalText n ++ "\n").bytes =
      (Toml.Line.entry key (.integer n)).bytes ++ [0x0A] := by
  have hend : (Text.ofString "\n").bytes = [0x0A] := by decide
  simp [Toml.Line.bytes, Toml.Value.bytes, decimalText, h, hend]

theorem bytes_string {key front : Text} (h : front.bytes = key.bytes ++ [0x20, 0x3D, 0x20, 0x22])
    (s : Text) : (front ++ s ++ "\"\n").bytes =
      (Toml.Line.entry key (.string s)).bytes ++ [0x0A] := by
  have hend : (Text.ofString "\"\n").bytes = [0x22, 0x0A] := by decide
  simp [Toml.Line.bytes, Toml.Value.bytes, h, hend]

theorem bytes_printSecrets (secrets : Option Text) :
    (printSecrets secrets).bytes = Toml.print (secretsLines secrets) := by
  cases secrets with
  | some p =>
      have hfront : (Text.ofString "[extensions.doppel]\nsecrets_file = \"").bytes =
          (Toml.Line.table doppelTable).bytes ++ 0x0A ::
            ((Text.ofString "secrets_file").bytes ++ [0x20, 0x3D, 0x20, 0x22]) := by decide
      have hend : (Text.ofString "\"\n").bytes = [0x22, 0x0A] := by decide
      simp [printSecrets, secretsLines, Toml.print, hfront, hend, Toml.Line.bytes,
        Toml.Value.bytes]
  | none => decide

theorem bytes_print : (cli.print dirs fc).bytes = Toml.print (cli.lines dirs fc) := by
  have hport := bytes_integer (show (Text.ofString "port = ").bytes =
    (Text.ofString "port").bytes ++ _ by decide) cli.port.toNat
  have hhost := bytes_string (show (Text.ofString "host = \"").bytes =
    (Text.ofString "host").bytes ++ _ by decide) cli.host
  have hdb := bytes_string (show (Text.ofString "db = \"").bytes =
    (Text.ofString "db").bytes ++ _ by decide) (cli.printedDb dirs)
  have httl := bytes_integer (show (Text.ofString "ttl = ").bytes =
    (Text.ofString "ttl").bytes ++ _ by decide) cli.ttl.toNat
  have htimeout := bytes_integer (show (Text.ofString "timeout = ").bytes =
    (Text.ofString "timeout").bytes ++ _ by decide) cli.timeout.toNat
  have hlimit := bytes_integer (show (Text.ofString "body_limit = ").bytes =
    (Text.ofString "body_limit").bytes ++ _ by decide) cli.bodyLimit.toNat
  have hblank : (Text.ofString "\n").bytes = Toml.Line.blank.bytes ++ [0x0A] := by decide
  simp only [print, lines, Text.bytes_concat, List.map_cons, List.map_nil, hport, hhost, hdb, httl,
    htimeout, hlimit, hblank, bytes_printUpstream, bytes_printSecrets, Toml.print,
    List.flatMap_append, List.flatMap_cons, List.flatMap_nil, List.flatten_cons, List.flatten_nil,
    List.append_nil, List.append_assoc]

/-! ### What is printed is read -/

variable (dirs cli fc)

/-- The settings as a file has them. -/
def file : FileConfig where
  port := some cli.port
  host := some cli.host
  db := some (cli.printedDb dirs)
  ttl := some cli.ttl
  timeout := some cli.timeout
  bodyLimit := some cli.bodyLimit
  anthropicUpstream := cli.anthropicUpstream
  openaiUpstream := cli.openaiUpstream
  openrouterUpstream := cli.openrouterUpstream
  geminiUpstream := cli.geminiUpstream
  extensions := (cli.doppelSecrets fc).map fun p => ⟨some ⟨some p⟩⟩

/-- All that can be printed, under its table and key. -/
def fields : List ((List Text × Text) × Option Toml.Value) :=
  [(([], "port"), some (.integer cli.port.toNat)), (([], "host"), some (.string cli.host)),
    (([], "db"), some (.string (cli.printedDb dirs))), (([], "ttl"), some (.integer cli.ttl.toNat)),
    (([], "timeout"), some (.integer cli.timeout.toNat)),
    (([], "body_limit"), some (.integer cli.bodyLimit.toNat)),
    (([], "anthropic_upstream"), cli.anthropicUpstream.map .string),
    (([], "openai_upstream"), cli.openaiUpstream.map .string),
    (([], "openrouter_upstream"), cli.openrouterUpstream.map .string),
    (([], "gemini_upstream"), cli.geminiUpstream.map .string),
    ((doppelTable, "secrets_file"), (cli.doppelSecrets fc).map .string)]

def document : Toml.Document where
  tables := (cli.doppelSecrets fc).toList.map fun _ => doppelTable
  entries := Toml.Document.present (cli.fields dirs fc)

variable {dirs cli fc}

theorem ofLines_upstreamLine (key : Text) (upstream : Option Text) (table : List Text)
    (lines : List Toml.Line) : Toml.Document.ofLines table (upstreamLine key upstream :: lines) =
      ⟨(Toml.Document.ofLines table lines).tables,
        Toml.Document.present [((table, key), upstream.map .string)] ++
          (Toml.Document.ofLines table lines).entries⟩ := by
  cases upstream <;> rfl

theorem ofLines_lines : Toml.Document.ofLines [] (cli.lines dirs fc) = cli.document dirs fc := by
  simp only [lines, List.cons_append, List.nil_append, Toml.Document.ofLines, ofLines_upstreamLine,
    document, fields]
  cases cli.doppelSecrets fc with
  | none => simp [secretsLines, Toml.Document.ofLines, Toml.Document.present]
  | some p => simp [secretsLines, Toml.Document.ofLines, Toml.Document.present]

/-- Every field has a name of its own, and none is the name of a table. -/
theorem fields_distinct : ((cli.fields dirs fc).map Prod.fst).Nodup ∧
    ∀ k ∈ (cli.fields dirs fc).map Prod.fst, ¬ k.1 ++ [k.2] <+: doppelTable := by
  let keys : List (List Text × Text) := [([], "port"), ([], "host"), ([], "db"), ([], "ttl"),
    ([], "timeout"), ([], "body_limit"), ([], "anthropic_upstream"), ([], "openai_upstream"),
    ([], "openrouter_upstream"), ([], "gemini_upstream"),
    (doppelTable, "secrets_file")]
  have hkeys : (cli.fields dirs fc).map Prod.fst = keys := rfl
  rw [hkeys]
  constructor <;> decide

theorem document_distinct : (cli.document dirs fc).Distinct where
  tables := by
    rw [document]
    cases cli.doppelSecrets fc with
    | none => exact List.nodup_nil
    | some p => exact List.nodup_singleton _
  keys := fields_distinct.1.sublist (Toml.Document.keys_present _)
  apart k hk t ht := by
    obtain ⟨-, -, rfl⟩ := List.mem_map.mp ht
    exact fields_distinct.2 k ((Toml.Document.keys_present _).subset hk)

theorem get_document (path : List Text) (key : Text) : (cli.document dirs fc).get path key =
    ((cli.fields dirs fc).lookup (path, key)).join :=
  Toml.Document.lookup_present fields_distinct.1 (path, key)

/-- A field at the top is what was printed for it. -/
theorem text_member {key : Text} {value : Option Text}
    (hget : (cli.fields dirs fc).lookup ([], key) = some (value.map .string))
    (hkey : key ≠ "extensions") : (member (cli.document dirs fc) [] key).text = some value := by
  rw [member, get_document, hget]
  cases value with
  | none =>
      have htable : (cli.document dirs fc).tables.any (fun t => ([] ++ [key]).isPrefixOf t) =
          false := by
        cases hsecrets : cli.doppelSecrets fc with
        | none => simp [document, hsecrets]
        | some p => simp [document, hsecrets, doppelTable, List.isPrefixOf, beq_false_of_ne hkey]
      simp only [Option.map_none, Option.join_some, htable]
      rfl
  | some v => rfl

theorem u64_member {key : Text} {n : UInt64}
    (hget : (cli.fields dirs fc).lookup ([], key) = some (some (.integer n.toNat))) :
    (member (cli.document dirs fc) [] key).u64 = some (some n) := by
  rw [member, get_document, hget]
  simp [Member.u64, n.toNat_lt]

theorem member_extensions : (member (cli.document dirs fc) [] "extensions").nested
    (((member (cli.document dirs fc) ["extensions"] "doppel").nested
      ((member (cli.document dirs fc) ["extensions", "doppel"] "secrets_file").text.map
        DoppelConfig.mk)).map ExtensionsConfig.mk) = some (cli.file dirs fc).extensions := by
  have hlookup (path : List Text) (key : Text)
      (h : (cli.fields dirs fc).lookup (path, key) = none) :
      (cli.document dirs fc).get path key = none := by
    rw [get_document, h]
    rfl
  have hextensions := hlookup [] "extensions" rfl
  have hdoppel := hlookup ["extensions"] "doppel" rfl
  cases hsecrets : cli.doppelSecrets fc with
  | none =>
      have houter : member (cli.document dirs fc) [] "extensions" = .missing := by
        rw [member, hextensions]
        simp [document, hsecrets]
      simp [houter, Member.nested, file, hsecrets]
  | some p =>
      have htables : (cli.document dirs fc).tables = [doppelTable] := by simp [document, hsecrets]
      have houter : member (cli.document dirs fc) [] "extensions" = .table := by
        rw [member, hextensions, htables]
        rfl
      have hinner : member (cli.document dirs fc) ["extensions"] "doppel" = .table := by
        rw [member, hdoppel, htables]
        rfl
      have hvalue : member (cli.document dirs fc) ["extensions", "doppel"] "secrets_file" =
          .value (.string p) := by
        have hfield : (cli.fields dirs fc).lookup (doppelTable, Text.ofString "secrets_file") =
            some ((cli.doppelSecrets fc).map Toml.Value.string) := rfl
        have hget : (cli.document dirs fc).get ["extensions", "doppel"] "secrets_file" =
            some (.string p) := by
          rw [hsecrets] at hfield
          exact (get_document ..).trans (congrArg Option.join hfield)
        rw [member, hget]
      rw [houter, hinner, hvalue, file, hsecrets]
      rfl

/-- What is printed has the settings that were printed. -/
theorem ofDocument_document :
    FileConfig.ofDocument (cli.document dirs fc) = some (cli.file dirs fc) := by
  have hport : (member (cli.document dirs fc) [] "port").u16 = some (some cli.port) := by
    rw [member, get_document]
    show Member.u16 (.value (.integer cli.port.toNat)) = _
    simp [Member.u16, cli.port.toNat_lt]
  have htext {key : Text} (value : Option Text)
      (hget : (cli.fields dirs fc).lookup ([], key) = some (value.map .string))
      (hkey : key ≠ "extensions") := text_member hget hkey
  have hnumber {key : Text} (n : UInt64)
      (hget : (cli.fields dirs fc).lookup ([], key) = some (some (.integer n.toNat))) :=
    u64_member hget
  rw [FileConfig.ofDocument, hport, htext (some cli.host) rfl (by decide),
    htext (some (cli.printedDb dirs)) rfl (by decide), hnumber cli.ttl rfl, hnumber cli.timeout rfl,
    hnumber cli.bodyLimit rfl, htext cli.anthropicUpstream rfl (by decide),
    htext cli.openaiUpstream rfl (by decide), htext cli.openrouterUpstream rfl (by decide),
    htext cli.geminiUpstream rfl (by decide)]
  simp only [Option.bind_eq_bind, Option.bind_some, member_extensions]
  rfl

end Cli

/-! ### Numbers and paths -/

theorem decimal_ne_nil (n : Nat) : JsonNumber.decimal n ≠ [] := by
  rw [JsonNumber.decimal]
  split <;> simp

theorem parseDigits_decimal (n : Nat) : parseDigits (JsonNumber.decimal n) = some n := by
  have hplus : (JsonNumber.decimal n).head? ≠ some 0x2B := by
    intro h
    have hdigit := JsonNumber.digits_decimal n 0x2B (List.mem_of_mem_head? h)
    exact absurd hdigit.1 (by decide)
  have hall : (JsonNumber.decimal n).all
      (fun d => 0x30 ≤ d.toNat && d.toNat ≤ 0x39) = true := by
    simpa using JsonNumber.digits_decimal n
  simp only [parseDigits, if_neg hplus]
  rw [if_pos ⟨decimal_ne_nil n, hall⟩, JsonNumber.foldl_decimal]

theorem parseU64_decimal (n : UInt64) : parseU64 (decimalText n.toNat).bytes = some n := by
  simp [parseU64, decimalText, parseDigits_decimal, n.toNat_lt]

theorem parseU16_decimal (n : UInt16) : parseU16 (decimalText n.toNat).bytes = some n := by
  have hminus : ∀ digits, JsonNumber.decimal n.toNat ≠ 0x2D :: digits := by
    intro digits h
    have hdigit := JsonNumber.digits_decimal n.toNat 0x2D (h ▸ List.mem_cons_self ..)
    exact absurd hdigit.1 (by decide)
  unfold parseU16
  split
  · rename_i digits heq
    exact absurd heq (hminus digits)
  · simp [decimalText, parseDigits_decimal, n.toNat_lt]

/-- The directories that are known begin at the root. -/
structure Dirs.Absolute (dirs : Dirs) : Prop where
  home : ∀ d ∈ dirs.homeDir, d.head? = some 0x2F
  cache : ∀ d ∈ dirs.cacheDir, d.head? = some 0x2F

theorem head?_joinPath {base : OsString} (h : base ≠ []) (rest : OsString) :
    (joinPath base rest).head? = some 0x2F ∨ (joinPath base rest).head? = base.head? := by
  unfold joinPath
  split
  · exact .inl ‹_›
  · split <;> exact .inr (List.head?_append_of_ne_nil _ h)

namespace Dirs

variable {dirs : Dirs}

theorem expandTilde_of_head {s : Text} (h : s.bytes.head? ≠ some 0x7E) :
    dirs.expandTilde s = s.bytes := by
  have hne : s ≠ "~" := by
    rintro rfl
    exact h rfl
  have hstrip : Sse.stripPrefix (Text.ofString "~/").bytes s.bytes = none := by
    apply if_neg
    intro hpre
    obtain ⟨rest, hrest⟩ := List.isPrefixOf_iff_prefix.mp hpre
    rw [← hrest] at h
    exact h rfl
  rw [expandTilde, if_neg hne, hstrip]

theorem expandTilde_cases (s : Text) : dirs.expandTilde s = s.bytes ∨
    ∃ home, dirs.homeDir = some home ∧
      (dirs.expandTilde s = home ∨ ∃ rest, dirs.expandTilde s = joinPath home rest) := by
  by_cases hs : s = "~"
  · rw [expandTilde, if_pos hs]
    cases hhome : dirs.homeDir with
    | none => exact .inl rfl
    | some home => exact .inr ⟨home, rfl, .inl rfl⟩
  · rw [expandTilde, if_neg hs]
    split
    · rename_i rest home _ hhome
      exact .inr ⟨home, hhome, .inr ⟨rest, rfl⟩⟩
    · exact .inl rfl

theorem head?_expandTilde (hd : dirs.Absolute) (s : Text) : dirs.expandTilde s = s.bytes ∨
    (dirs.expandTilde s).head? = some 0x2F := by
  rcases dirs.expandTilde_cases s with h | ⟨home, hhome, h | ⟨rest, h⟩⟩
  · exact .inl h
  · rw [h]
    exact .inr (hd.home home hhome)
  · rw [h]
    have hslash := hd.home home hhome
    have hne : home ≠ [] := by
      rintro rfl
      cases hslash
    exact .inr ((head?_joinPath hne rest).elim id fun heq => heq.trans hslash)

/-- An expanded path that is text has nothing to expand. -/
theorem expandTilde_expandTilde (hd : dirs.Absolute) {s t : Text}
    (ht : t.bytes = dirs.expandTilde s) : dirs.expandTilde t = dirs.expandTilde s := by
  rcases head?_expandTilde hd s with h | h
  · rw [Text.ext (ht.trans h)]
  · rw [← ht] at h ⊢
    exact expandTilde_of_head (by simp [h])

theorem head?_defaultDbPath (hd : dirs.Absolute) :
    dirs.defaultDbPath.head? = some 0x2F ∨ dirs.defaultDbPath.head? = some 0x2E := by
  have hbase : (dirs.cacheDir.getD (Text.ofString ".").bytes).head? = some 0x2F ∨
      (dirs.cacheDir.getD (Text.ofString ".").bytes).head? = some 0x2E := by
    cases hcache : dirs.cacheDir with
    | none => exact .inr rfl
    | some d => exact .inl (hd.cache d hcache)
  have hjoin {base : OsString} (h : base.head? = some 0x2F ∨ base.head? = some 0x2E)
      (rest : OsString) : (joinPath base rest).head? = some 0x2F ∨
        (joinPath base rest).head? = some 0x2E := by
    have hne : base ≠ [] := by
      rintro rfl
      rcases h with h | h <;> cases h
    rcases head?_joinPath hne rest with hslash | hsame
    · exact .inl hslash
    · rwa [hsame]
  exact hjoin (hjoin hbase _) _

end Dirs

namespace Cli

variable {dirs : Dirs} {cli : Cli} {fc : Option FileConfig}

theorem dbPath_ne_nil (hd : dirs.Absolute) (h : cli.db ≠ some []) : cli.dbPath dirs ≠ [] := by
  intro hnil
  have hhead : (cli.dbPath dirs).head? = none := by rw [hnil, List.head?_nil]
  cases hdb : cli.db with
  | none =>
      rw [dbPath, hdb] at hhead
      rcases Dirs.head?_defaultDbPath hd with h | h <;> simp [h] at hhead
  | some db =>
      rw [dbPath, hdb] at hhead hnil
      rcases Dirs.head?_expandTilde hd (Text.lossy db) with hsame | hslash
      · have hne : db ≠ [] := by
          rintro rfl
          exact h hdb
        simp only [hsame] at hnil
        exact Utf8.lossy_ne_nil hne hnil
      · simp [hslash] at hhead

/-- There is a path, and printed and read it is the same. -/
structure Survives (cli : Cli) (dirs : Dirs) : Prop where
  nonempty : cli.printedDb dirs ≠ ""
  same : dirs.expandTilde (cli.printedDb dirs) = cli.dbPath dirs

/-- A path that is text survives where the directories of the user are absolute. -/
theorem survives (hd : dirs.Absolute) (hdb : cli.db ≠ some []) (hv : Utf8.Valid (cli.dbPath dirs)) :
    cli.Survives dirs := by
  have hprinted : (cli.printedDb dirs).bytes = cli.dbPath dirs := Utf8.lossy_of_valid hv
  have hnonempty : cli.printedDb dirs ≠ "" := by
    intro hempty
    rw [hempty] at hprinted
    exact dbPath_ne_nil hd hdb hprinted.symm
  refine ⟨hnonempty, ?_⟩
  cases hdb : cli.db with
  | none =>
      have hpath : cli.dbPath dirs = dirs.defaultDbPath := by simp only [dbPath, hdb]
      rw [← hprinted]
      apply Dirs.expandTilde_of_head
      rw [hprinted, hpath]
      rcases Dirs.head?_defaultDbPath hd with h | h <;> simp [h]
  | some db =>
      have hpath : cli.dbPath dirs = dirs.expandTilde (Text.lossy db) := by simp only [dbPath, hdb]
      rw [hpath] at hprinted ⊢
      exact Dirs.expandTilde_expandTilde hd hprinted

/-! ### The program that reads it -/

/-- Nothing that is printed needs an escape, and the numbers are those of TOML. -/
structure Plain (dirs : Dirs) (cli : Cli) (fc : Option FileConfig) : Prop where
  host : (Toml.Value.string cli.host).Plain
  db : (Toml.Value.string (cli.printedDb dirs)).Plain
  ttl : cli.ttl.toNat < 2 ^ 63
  timeout : cli.timeout.toNat < 2 ^ 63
  bodyLimit : cli.bodyLimit.toNat < 2 ^ 63
  anthropicUpstream : ∀ u ∈ cli.anthropicUpstream, (Toml.Value.string u).Plain
  openaiUpstream : ∀ u ∈ cli.openaiUpstream, (Toml.Value.string u).Plain
  openrouterUpstream : ∀ u ∈ cli.openrouterUpstream, (Toml.Value.string u).Plain
  geminiUpstream : ∀ u ∈ cli.geminiUpstream, (Toml.Value.string u).Plain
  secrets : ∀ p ∈ cli.doppelSecrets fc, (Toml.Value.string p).Plain

theorem upstreamLine_plain {key : Text} {upstream : Option Text} (hkey : Toml.BareKey key)
    (hu : ∀ u ∈ upstream, (Toml.Value.string u).Plain) : (upstreamLine key upstream).Plain := by
  cases upstream with
  | some u => exact ⟨hkey, hu u rfl⟩
  | none =>
      intro b hb
      rw [Text.bytes_append, Text.bytes_append] at hb
      rcases List.mem_append.mp hb with hb | hb
      · rcases List.mem_append.mp hb with hb | hb
        · have hspace : (Text.ofString " ").bytes.all Toml.isPrintable = true := by decide
          exact List.all_eq_true.mp hspace b hb
        · exact Toml.isPrintable_of_isKeyByte (hkey.2 b hb)
      · have hend : (Text.ofString " = \"\"").bytes.all Toml.isPrintable = true := by decide
        exact List.all_eq_true.mp hend b hb

theorem secretsLines_plain {secrets : Option Text}
    (hs : ∀ p ∈ secrets, (Toml.Value.string p).Plain) : ∀ l ∈ secretsLines secrets, l.Plain := by
  cases secrets with
  | some p =>
      have hname : ∀ key ∈ doppelTable, Toml.BareKey key := by
        intro key hkey
        rcases List.mem_pair.mp hkey with rfl | rfl <;> decide
      intro l hl
      rcases List.mem_pair.mp hl with rfl | rfl
      · exact ⟨by decide, hname⟩
      · exact ⟨by decide, hs p rfl⟩
  | none =>
      intro l hl
      rcases List.mem_pair.mp hl with rfl | rfl
      · exact List.all_eq_true.mp (by decide)
      · exact List.all_eq_true.mp (by decide)

theorem Plain.lines (h : cli.Plain dirs fc) : ∀ l ∈ cli.lines dirs fc, l.Plain := by
  have hnumber : cli.port.toNat < 2 ^ 63 := lt_trans cli.port.toNat_lt (by decide)
  simp only [Cli.lines, List.cons_append, List.nil_append, List.forall_mem_cons]
  exact ⟨⟨by decide, hnumber⟩, ⟨by decide, h.host⟩, ⟨by decide, h.db⟩, ⟨by decide, h.ttl⟩,
    ⟨by decide, h.timeout⟩, ⟨by decide, h.bodyLimit⟩,
    upstreamLine_plain (by decide) h.anthropicUpstream,
    upstreamLine_plain (by decide) h.openaiUpstream,
    upstreamLine_plain (by decide) h.openrouterUpstream,
    upstreamLine_plain (by decide) h.geminiUpstream, trivial, secretsLines_plain h.secrets⟩

/-- A reader of plain documents reads the settings. -/
theorem Plain.fromToml (h : cli.Plain dirs fc) {fromToml : Text → Option FileConfig}
    (ht : ReadsToml fromToml) : fromToml (cli.print dirs fc) = some (cli.file dirs fc) := by
  rw [ht.read _ _ bytes_print h.lines (ofLines_lines ▸ document_distinct), ofLines_lines,
    ofDocument_document]

/-- Nothing in such a file makes the program panic. -/
theorem Plain.nul_not_mem (h : cli.Plain dirs fc) {arg : Arg} {v : Text}
    (hv : (cli.file dirs fc).value arg = some v) : 0 ∉ v.bytes := by
  have hstring {s : Text} (hs : (Toml.Value.string s).Plain) : 0 ∉ s.bytes :=
    fun hmem => absurd (hs 0 hmem).1 (by decide)
  have hnumber (n : Nat) : 0 ∉ (decimalText n).bytes :=
    fun hmem => absurd (JsonNumber.digits_decimal n 0 hmem).1 (by decide)
  cases arg with
  | config | doppelSecretsFile => cases hv
  | port | ttl | timeout | bodyLimit =>
      obtain rfl := Option.some.inj hv
      exact hnumber _
  | host =>
      obtain rfl := Option.some.inj hv
      exact hstring h.host
  | db =>
      obtain rfl := Option.some.inj hv
      exact hstring h.db
  | anthropicUpstream => exact hstring (h.anthropicUpstream v hv)
  | openaiUpstream => exact hstring (h.openaiUpstream v hv)
  | openrouterUpstream => exact hstring (h.openrouterUpstream v hv)
  | geminiUpstream => exact hstring (h.geminiUpstream v hv)

theorem db_of_parse {cl : CommandLine} {env : Environment} (h : parse cl env = some cli) :
    cli.db ≠ some [] := by
  simp only [parse, Option.bind_eq_bind, Option.bind_eq_some_iff] at h
  obtain ⟨config, -, port, -, host, -, db, hdb, ttl, -, timeout, -, bodyLimit, -, a, -, o, -, r, -,
    g, -, secrets, -, h⟩ := h
  obtain rfl := Option.some.inj h
  rintro rfl
  cases hraw : cl.raw env .db with
  | none => simp [hraw, parseOptional] at hdb
  | some bs =>
      rw [hraw, parseOptional, parsePath] at hdb
      split at hdb
      · cases hdb
      · rename_i hne
        simp only [Option.map_some, Option.some.injEq] at hdb
        exact hne hdb

/-- What is parsed where the file has all the settings. -/
def again (cli : Cli) (dirs : Dirs) : Cli :=
  { cli with
    config := none
    printConfig := false
    db := some (cli.printedDb dirs).bytes
    doppelSecretsFile := none }

theorem dbPath_again :
    (cli.again dirs).dbPath dirs = dirs.expandTilde (cli.printedDb dirs) := by
  have hlossy : Text.lossy (cli.printedDb dirs).bytes = cli.printedDb dirs :=
    Text.ext (Utf8.lossy_of_valid (cli.printedDb dirs).valid)
  show dirs.expandTilde (Text.lossy (cli.printedDb dirs).bytes) = _
  rw [hlossy]

theorem doppelSecrets_again :
    (cli.again dirs).doppelSecrets (some (cli.file dirs fc)) = cli.doppelSecrets fc := by
  show (cli.file dirs fc).secretsFile = _
  rw [FileConfig.secretsFile, file]
  cases cli.doppelSecrets fc <;> rfl

end Cli

/-- The outcome with the server changed, if there is one. -/
def Outcome.mapServer {σ : Type} (f : Listening σ → Listening σ) : Outcome σ → Outcome σ
  | .serving server => .serving (f server)
  | outcome => outcome

namespace Machine

variable {σ : Type} {m : Machine σ} {cli : Cli}

/-- Where the file has all the settings, they are what is parsed, but for an empty
path. -/
theorem parse_file {cl : CommandLine} {env : Environment} {dirs : Dirs} {fc : Option FileConfig}
    (hprint : cl.printConfig = false)
    (hraw : ∀ arg, cl.raw env arg =
      (((cli.file dirs fc).value arg).map Text.bytes).or (arg.defaultValue.map Text.bytes)) :
    Cli.parse cl env = if cli.printedDb dirs = "" then none else some (cli.again dirs) := by
  have htext (u : Option Text) :
      parseOptional Text.ofUtf8? ((u.map Text.bytes).or none) = some u := by
    cases u with
    | none => rfl
    | some u => simp [parseOptional, Text.ofUtf8?_eq_some.mpr rfl]
  have hempty : (cli.printedDb dirs).bytes = [] ↔ cli.printedDb dirs = "" :=
    ⟨fun h => Text.ext h, fun h => by rw [h]; rfl⟩
  simp only [Cli.parse, hraw, FileConfig.value, Cli.file, Arg.defaultValue, Option.map_some,
    Option.map_none, Option.some_or, Option.none_or, parseU16_decimal, parseU64_decimal, htext,
    Option.bind_some, Option.bind_eq_bind]
  by_cases hdb : cli.printedDb dirs = ""
  · have hnil := hempty.mpr hdb
    rw [if_pos hdb]
    simp [parseOptional, parsePath, hnil, Text.ofUtf8?_eq_some.mpr rfl]
  · have hne : (cli.printedDb dirs).bytes ≠ [] := fun h => hdb (hempty.mp h)
    simp [parseOptional, parsePath, hne, hdb, hprint, Text.ofUtf8?_eq_some.mpr rfl, Cli.again]

/-- The same machine, run again. -/
def again (m : Machine σ) (commandLine : CommandLine) (env : Environment)
    (readToString : OsString → Option Text) : Machine σ :=
  { m with commandLine, env, readToString }

@[simp] theorem commandLine_again (cl : CommandLine) (env : Environment)
    (readToString : OsString → Option Text) : (m.again cl env readToString).commandLine = cl := rfl

@[simp] theorem env_again (cl : CommandLine) (env : Environment)
    (readToString : OsString → Option Text) : (m.again cl env readToString).env = env := rfl

@[simp] theorem dirs_again (cl : CommandLine) (env : Environment)
    (readToString : OsString → Option Text) : (m.again cl env readToString).dirs = m.dirs := rfl

variable {cl : CommandLine} {env : Environment} {readToString : OsString → Option Text} {text : Text}

theorem main_of_cli (h : m.cli = some cli) : m.main =
    if cli.printConfig then .printed (cli.print m.dirs m.fileConfig) else m.run cli := by
  obtain ⟨env, hseeded, hparse⟩ := Option.bind_eq_some_iff.mp h
  simp only [main, hseeded, hparse]

theorem exists_cli_of_printed (h : m.main = .printed text) :
    ∃ cli, m.cli = some cli ∧ cli.db ≠ some [] ∧ text = cli.print m.dirs m.fileConfig := by
  rw [main] at h
  split at h
  · cases h
  · rename_i env hseeded
    split at h
    · cases h
    · rename_i cli hparse
      have hcli : m.cli = some cli := by rw [Machine.cli, hseeded, Option.bind_some, hparse]
      split at h
      · exact ⟨cli, hcli, Cli.db_of_parse hparse, (Outcome.printed.inj h).symm⟩
      · rw [run] at h
        split at h <;> cases h

/-- With the settings that were printed for `cli` as the only ones, the program
comes to what it comes to for the database path that was printed. -/
theorem main_again {cli : Cli} (hfile : (m.again cl env readToString).fileConfig =
      some (cli.file m.dirs m.fileConfig)) (hplain : cli.Plain m.dirs m.fileConfig)
    (hgiven : cl.given = []) (henv : ∀ arg : Arg, env arg.envVar = none) :
    (m.again cl env readToString).main =
      if cli.printedDb m.dirs = "" then .usage
      else (m.again cl env readToString).run (cli.again m.dirs) := by
  have hvalue (arg : Arg) : cl.value arg = none := by simp [CommandLine.value, hgiven]
  have hvar (arg : Arg) : env.var arg.envVar = none := by simp [Environment.var, henv arg]
  have hprint : cl.printConfig = false := by simp [CommandLine.printConfig, hgiven]
  cases hseeded : (m.again cl env readToString).seeded with
  | none =>
      obtain ⟨arg, v, hv, hnul, -⟩ := (seeded_eq_none_iff _).mp hseeded
      rw [hfile, Option.bind_some] at hv
      exact absurd hnul (hplain.nul_not_mem hv)
  | some env' =>
      have hraw (arg : Arg) : cl.raw env' arg =
          (((cli.file m.dirs m.fileConfig).value arg).map Text.bytes).or
            (arg.defaultValue.map Text.bytes) := by
        have h := (m.again cl env readToString).raw_seeded hseeded arg
        simpa [hfile, hvalue, hvar, henv] using h
      simp only [main, hseeded, commandLine_again, parse_file hprint hraw]
      by_cases hdb : cli.printedDb m.dirs = ""
      · simp only [if_pos hdb]
      · simp only [if_neg hdb]
        rfl

theorem dbPath_of_run {server : Listening σ} (h : m.run cli = .serving server) :
    server.dbPath = cli.dbPath m.dirs := by
  rw [run] at h
  split at h
  · cases h
  · obtain rfl := Outcome.serving.inj h
    rfl

/-- The same run starts a server on the database whose path was printed. -/
theorem run_again (cli : Cli) {cl : CommandLine} {env : Environment}
    {readToString : OsString → Option Text} (hfile : (m.again cl env readToString).fileConfig =
      some (cli.file m.dirs m.fileConfig)) :
    (m.again cl env readToString).run (cli.again m.dirs) = (m.run cli).mapServer fun server =>
      { server with dbPath := m.dirs.expandTilde (cli.printedDb m.dirs) } := by
  rw [run, run, hfile, Cli.doppelSecrets_again, dirs_again, Cli.dbPath_again]
  have haddr : (m.again cl env readToString).parseAddr (addrText (cli.again m.dirs)) =
      m.parseAddr (addrText cli) := rfl
  rw [haddr]
  cases m.parseAddr (addrText cli) with
  | none => rfl
  | some addr => rfl

/-- The printed settings, as the only ones, start the server that the program
starts where it does not print them, if the path of the database survives being
printed, and only then. That it does where it is text and the directories of the
user are absolute. -/
theorem printed_config_restarts (ht : ReadsToml m.fromToml) (hprinted : m.main = .printed text)
    (hplain : ∀ cli, m.cli = some cli → cli.Plain m.dirs m.fileConfig)
    (hgiven : cl.given = []) (henv : ∀ arg : Arg, env arg.envVar = none)
    (hread : readToString m.dirs.defaultConfigPath = some text) :
    ∃ cli, m.cli = some cli ∧
      (cli.Survives m.dirs → (m.again cl env readToString).main = m.run cli) ∧
      (∀ server, m.run cli = .serving server →
        ((m.again cl env readToString).main = .serving server ↔ cli.Survives m.dirs)) ∧
      (m.dirs.Absolute → Utf8.Valid (cli.dbPath m.dirs) → cli.Survives m.dirs) := by
  obtain ⟨cli, hcli, hdb, rfl⟩ := exists_cli_of_printed hprinted
  have hpath : (m.again cl env readToString).configPath = m.dirs.defaultConfigPath := by
    have hnone : env.var "LCP_CONFIG" = none := by
      simp [Environment.var, show env "LCP_CONFIG" = none from henv .config]
    simp [configPath_eq, CommandLine.value, hgiven, hnone]
  have hfile : (m.again cl env readToString).fileConfig =
      some (cli.file m.dirs m.fileConfig) := by
    rw [fileConfig, hpath]
    show (readToString m.dirs.defaultConfigPath).bind m.fromToml = _
    rw [hread]
    exact (hplain cli hcli).fromToml ht
  have hmain := main_again hfile (hplain cli hcli) hgiven henv
  rw [run_again cli hfile] at hmain
  have hsame (h : cli.Survives m.dirs) : (m.again cl env readToString).main = m.run cli := by
    rw [hmain, if_neg h.nonempty]
    cases hrun : m.run cli with
    | serving server =>
        rw [Outcome.mapServer, h.same, ← dbPath_of_run hrun]
    | panicked | usage | printed | failed => rfl
  refine ⟨cli, hcli, hsame, fun server hserver => ⟨fun h => ?_, fun h => ?_⟩,
    fun hd hv => Cli.survives hd hdb hv⟩
  · rw [hmain, hserver] at h
    split at h
    · cases h
    · rename_i hnonempty
      have hpath := congrArg Listening.dbPath (Outcome.serving.inj h)
      exact ⟨hnonempty, hpath.trans (dbPath_of_run hserver)⟩
  · rw [hsame h, hserver]

/-! ### A machine -/

/-- A reader of plain documents alone. -/
def plainToml (text : Text) : Option FileConfig :=
  (Toml.read text.bytes).bind fun lines => FileConfig.ofDocument (.ofLines [] lines)

theorem plainToml_readsToml : ReadsToml plainToml where
  read text lines htext hplain _ := by
    rw [plainToml, htext, Toml.read_print hplain, Option.bind_some]

/-- The time to live is given on the command line, and the database in the
environment. -/
noncomputable def sampleMachine : Machine Text :=
  { bareMachine with
    commandLine :=
      { bareCommandLine with
        given := [.printConfig, .value .ttl "3600" true]
        distinct := by decide
        separate := by simp }
    env := fun name => if name = "LCP_DB" then some (Text.ofString "~/lcp.db").bytes else none
    fromToml := plainToml }

def sampleCli : Cli where
  config := none
  printConfig := true
  port := 9001
  host := "127.0.0.1"
  db := some (Text.ofString "~/lcp.db").bytes
  ttl := 3600
  timeout := 300
  bodyLimit := 104857600
  anthropicUpstream := none
  openaiUpstream := none
  openrouterUpstream := none
  geminiUpstream := none
  doppelSecretsFile := none

private theorem cli_sampleMachine : sampleMachine.cli = some sampleCli := by
  rfl

private theorem plain_sampleCli :
    sampleCli.Plain sampleMachine.dirs sampleMachine.fileConfig := by
  have hsecrets : sampleCli.doppelSecrets sampleMachine.fileConfig = none := rfl
  have hpath : sampleCli.printedDb sampleMachine.dirs = "/home/user/lcp.db" := rfl
  exact {
    host := by decide
    db := hpath ▸ by decide
    ttl := by decide
    timeout := by decide
    bodyLimit := by decide
    anthropicUpstream := by simp [sampleCli]
    openaiUpstream := by simp [sampleCli]
    openrouterUpstream := by simp [sampleCli]
    geminiUpstream := by simp [sampleCli]
    secrets := by simp [hsecrets] }

private theorem absolute_sampleMachine : sampleMachine.dirs.Absolute where
  home d hd := by
    obtain rfl := Option.some.inj hd
    rfl
  cache d hd := by
    obtain rfl := Option.some.inj hd
    rfl

theorem printed_config_restarts_home :
    (sampleMachine.again bareCommandLine (fun _ => none)
      fun _ => some (sampleCli.print sampleMachine.dirs none)).main =
        sampleMachine.run sampleCli := by
  have hprinted : sampleMachine.main = .printed (sampleCli.print sampleMachine.dirs none) := by
    rw [main_of_cli cli_sampleMachine]
    rfl
  have hplain : ∀ cli, sampleMachine.cli = some cli →
      cli.Plain sampleMachine.dirs sampleMachine.fileConfig := by
    intro cli hcli
    obtain rfl := Option.some.inj (cli_sampleMachine.symm.trans hcli)
    exact plain_sampleCli
  obtain ⟨cli, hcli, hmain, -, hsurvives⟩ : ∃ cli, sampleMachine.cli = some cli ∧
      (cli.Survives sampleMachine.dirs → (sampleMachine.again bareCommandLine (fun _ => none)
        fun _ => some (sampleCli.print sampleMachine.dirs none)).main =
          sampleMachine.run cli) ∧ _ :=
    printed_config_restarts plainToml_readsToml hprinted hplain rfl (fun _ => rfl) rfl
  obtain rfl := Option.some.inj (cli_sampleMachine.symm.trans hcli)
  exact hmain (hsurvives absolute_sampleMachine (by decide))

end Machine

end LlmCacheProxy
