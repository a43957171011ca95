import LlmCacheProxy.Foundation.Toml
import LlmCacheProxy.Router
import LlmCacheProxy.Sse.Frame

/-!
# Configuration

The program takes its settings from the command line, from the environment and
from a file. The file comes first in time: its values are put into the
environment where that has none, and then the command line is parsed, which
falls back on the environment and on defaults.
-/

namespace LlmCacheProxy

/-! ### The environment -/

/-- Strings of the operating system need not be text. -/
abbrev OsString := Bytes

abbrev Environment := Text → Option OsString

namespace Environment

/-- `std::env::var`. -/
def var (env : Environment) (name : Text) : Option Text := (env name).bind Text.ofUtf8?

/-- `std::env::set_var`, which panics on a NUL in the value. -/
def setVar (env : Environment) (name value : Text) : Option Environment :=
  if 0 ∈ value.bytes then none else some fun k => if k = name then some value.bytes else env k

/-- The macro `seed!`. -/
def seed (env : Environment) (name : Text) (value : Option Text) : Option Environment :=
  match value with
  | some v => if env.var name = none then env.setVar name v else some env
  | none => some env

end Environment

/-! ### The file -/

structure DoppelConfig where
  secretsFile : Option Text

structure ExtensionsConfig where
  doppel : Option DoppelConfig

structure FileConfig where
  port : Option UInt16
  host : Option Text
  db : Option Text
  ttl : Option UInt64
  timeout : Option UInt64
  bodyLimit : Option UInt64
  anthropicUpstream : Option Text
  openaiUpstream : Option Text
  openrouterUpstream : Option Text
  geminiUpstream : Option Text
  extensions : Option ExtensionsConfig

/-- `to_string` of a number. -/
def decimalText (n : Nat) : Text :=
  ⟨JsonNumber.decimal n, Utf8.valid_of_ascii fun d hd => by
    have h := JsonNumber.digits_decimal n d hd
    omega⟩

namespace FileConfig

variable (fc : FileConfig)

def seeds : List (Text × Option Text) :=
  [("LCP_PORT", fc.port.map fun n => decimalText n.toNat),
    ("LCP_HOST", fc.host),
    ("LCP_DB", fc.db),
    ("LCP_TTL", fc.ttl.map fun n => decimalText n.toNat),
    ("LCP_TIMEOUT", fc.timeout.map fun n => decimalText n.toNat),
    ("LCP_BODY_LIMIT", fc.bodyLimit.map fun n => decimalText n.toNat),
    ("LCP_ANTHROPIC_UPSTREAM", fc.anthropicUpstream),
    ("LCP_OPENAI_UPSTREAM", fc.openaiUpstream),
    ("LCP_OPENROUTER_UPSTREAM", fc.openrouterUpstream),
    ("LCP_GEMINI_UPSTREAM", fc.geminiUpstream)]

/-- One after the other; `none` is a panic. -/
def seedEnv (env : Environment) : Option Environment :=
  fc.seeds.foldlM (fun env seed => env.seed seed.1 seed.2) env

def secretsFile : Option Text :=
  fc.extensions.bind fun ext => ext.doppel.bind DoppelConfig.secretsFile

end FileConfig

/-! ### The command line -/

/-- The arguments that have a value. -/
inductive Arg where
  | config
  | port
  | host
  | db
  | ttl
  | timeout
  | bodyLimit
  | anthropicUpstream
  | openaiUpstream
  | openrouterUpstream
  | geminiUpstream
  | doppelSecretsFile
  deriving DecidableEq

namespace Arg

def flag : Arg → Text
  | config => "config"
  | port => "port"
  | host => "host"
  | db => "db"
  | ttl => "ttl"
  | timeout => "timeout"
  | bodyLimit => "body-limit"
  | anthropicUpstream => "anthropic-upstream"
  | openaiUpstream => "openai-upstream"
  | openrouterUpstream => "openrouter-upstream"
  | geminiUpstream => "gemini-upstream"
  | doppelSecretsFile => "doppel-secrets-file"

def envVar : Arg → Text
  | config => "LCP_CONFIG"
  | port => "LCP_PORT"
  | host => "LCP_HOST"
  | db => "LCP_DB"
  | ttl => "LCP_TTL"
  | timeout => "LCP_TIMEOUT"
  | bodyLimit => "LCP_BODY_LIMIT"
  | anthropicUpstream => "LCP_ANTHROPIC_UPSTREAM"
  | openaiUpstream => "LCP_OPENAI_UPSTREAM"
  | openrouterUpstream => "LCP_OPENROUTER_UPSTREAM"
  | geminiUpstream => "LCP_GEMINI_UPSTREAM"
  | doppelSecretsFile => "LCP_DOPPEL_SECRETS_FILE"

def defaultValue : Arg → Option Text
  | port => some "9001"
  | host => some "127.0.0.1"
  | ttl => some "0"
  | timeout => some "300"
  | bodyLimit => some "104857600"
  | _ => none

end Arg

/-- What the command line gives: `--flag value`, or `--flag=value`. -/
inductive Given where
  | printConfig
  | value (arg : Arg) (v : Text) (joined : Bool)

def Given.arg : Given → Option Arg
  | printConfig => none
  | value arg _ _ => some arg

def Given.tokens : Given → List Text
  | printConfig => ["--print-config"]
  | value arg v true => ["--" ++ arg.flag ++ "=" ++ v]
  | value arg v false => ["--" ++ arg.flag, v]

/-- A token that is taken for a flag; a single hyphen is none. -/
def isFlag (token : Text) : Bool := token.bytes.head? = some 0x2D && token.bytes ≠ [0x2D]

/-- A command line that `clap` accepts and goes on with. -/
structure CommandLine where
  program : Text
  given : List Given
  named : isFlag program = false
  distinct : (given.map Given.arg).Nodup
  separate : ∀ arg v, .value arg v false ∈ given → isFlag v = false

namespace CommandLine

variable (cl : CommandLine)

def args : List Text := cl.program :: cl.given.flatMap Given.tokens

def value (arg : Arg) : Option Text :=
  cl.given.findSome? fun
    | .value arg' v _ => if arg' = arg then some v else none
    | .printConfig => none

def printConfig : Bool := cl.given.any fun g => g.arg = none

/-- The command line goes before the environment, and that before the default. -/
def raw (env : Environment) (arg : Arg) : Option OsString :=
  ((cl.value arg).map Text.bytes).or ((env arg.envVar).or (arg.defaultValue.map Text.bytes))

end CommandLine

/-- `--config` among the arguments; its value may be missing. -/
def scanConfig : List Text → Option (Option Text)
  | [] => none
  | arg :: rest =>
      if arg = "--config" then some rest.head?
      else
        match (Sse.stripPrefix (Text.ofString "--config=").bytes arg.bytes).bind Text.ofUtf8? with
        | some path => some (some path)
        | none => scanConfig rest

def configPathFromArgs (args : List Text) (env : Environment) : Option Text :=
  match scanConfig args with
  | some path => path
  | none => (env.var "LCP_CONFIG").filter fun v => v ≠ ""

/-! ### Parsed values -/

/-- Digits behind an optional plus. -/
def parseDigits (bs : Bytes) : Option Nat :=
  let digits := if bs.head? = some 0x2B then bs.drop 1 else bs
  if digits ≠ [] ∧ digits.all (fun d => 0x30 ≤ d.toNat && d.toNat ≤ 0x39) = true then
    some (digits.foldl (fun v d => 10 * v + (d.toNat - 0x30)) 0)
  else none

def parseU64 (bs : OsString) : Option UInt64 :=
  (parseDigits bs).bind fun n => if n < 2 ^ 64 then some (.ofNat n) else none

/-- A 16-bit number is parsed with a sign, and then has to be in its range. -/
def parseU16 (bs : OsString) : Option UInt16 :=
  match bs with
  | 0x2D :: digits =>
      if digits.head? = some 0x2B then none
      else (parseDigits digits).bind fun n => if n = 0 then some 0 else none
  | bs => (parseDigits bs).bind fun n => if n < 2 ^ 16 then some (.ofNat n) else none

/-- A path may be anything but empty. -/
def parsePath (bs : OsString) : Option OsString := if bs = [] then none else some bs

/-- An argument without a value is left out. -/
def parseOptional {α : Type*} (parse : OsString → Option α) :
    Option OsString → Option (Option α)
  | some bs => (parse bs).map some
  | none => some none

structure Cli where
  config : Option OsString
  printConfig : Bool
  port : UInt16
  host : Text
  db : Option OsString
  ttl : UInt64
  timeout : UInt64
  bodyLimit : UInt64
  anthropicUpstream : Option Text
  openaiUpstream : Option Text
  openrouterUpstream : Option Text
  geminiUpstream : Option Text
  doppelSecretsFile : Option OsString

/-- A value that does not parse ends the program. -/
def Cli.parse (cl : CommandLine) (env : Environment) : Option Cli := do
  let config ← parseOptional parsePath (cl.raw env .config)
  let port ← (cl.raw env .port).bind parseU16
  let host ← (cl.raw env .host).bind Text.ofUtf8?
  let db ← parseOptional parsePath (cl.raw env .db)
  let ttl ← (cl.raw env .ttl).bind parseU64
  let timeout ← (cl.raw env .timeout).bind parseU64
  let bodyLimit ← (cl.raw env .bodyLimit).bind parseU64
  let anthropicUpstream ← parseOptional Text.ofUtf8? (cl.raw env .anthropicUpstream)
  let openaiUpstream ← parseOptional Text.ofUtf8? (cl.raw env .openaiUpstream)
  let openrouterUpstream ← parseOptional Text.ofUtf8? (cl.raw env .openrouterUpstream)
  let geminiUpstream ← parseOptional Text.ofUtf8? (cl.raw env .geminiUpstream)
  let doppelSecretsFile ← parseOptional parsePath (cl.raw env .doppelSecretsFile)
  some { config, printConfig := cl.printConfig, port, host, db, ttl, timeout, bodyLimit,
         anthropicUpstream, openaiUpstream, openrouterUpstream, geminiUpstream,
         doppelSecretsFile }

/-! ### Paths -/

/-- The directories of the user. -/
structure Dirs where
  configDir : Option OsString
  cacheDir : Option OsString
  homeDir : Option OsString

/-- `Path::join`. -/
def joinPath (base rest : OsString) : OsString :=
  if rest.head? = some 0x2F then rest
  else if base = [] ∨ base.getLast? = some 0x2F then base ++ rest
  else base ++ 0x2F :: rest

namespace Dirs

variable (dirs : Dirs)

def expandTilde (s : Text) : OsString :=
  if s = "~" then dirs.homeDir.getD s.bytes
  else
    match Sse.stripPrefix (Text.ofString "~/").bytes s.bytes, dirs.homeDir with
    | some rest, some home => joinPath home rest
    | _, _ => s.bytes

def defaultConfigPath : OsString :=
  joinPath (joinPath (dirs.configDir.getD (Text.ofString ".").bytes) (Text.ofString "lcp").bytes)
    (Text.ofString "config.toml").bytes

def defaultDbPath : OsString :=
  joinPath (joinPath (dirs.cacheDir.getD (Text.ofString ".").bytes) (Text.ofString "lcp").bytes)
    (Text.ofString "cache.db").bytes

end Dirs

namespace Cli

variable (dirs : Dirs) (cli : Cli)

def dbPath : OsString :=
  match cli.db with
  | some db => dirs.expandTilde (Text.lossy db)
  | none => dirs.defaultDbPath

/-- `display`; what is not text in the path is replaced. -/
def printedDb : Text := .lossy (cli.dbPath dirs)

/-- The flag and its variable go before the file. -/
def doppelSecrets (fc : Option FileConfig) : Option Text :=
  (cli.doppelSecretsFile.map Text.lossy).or (fc.bind FileConfig.secretsFile)

def printUpstream (key : Text) (upstream : Option Text) : Text :=
  match upstream with
  | some u => key ++ " = \"" ++ u ++ "\"\n"
  | none => "# " ++ key ++ " = \"\"\n"

def printSecrets (secrets : Option Text) : Text :=
  match secrets with
  | some p => "[extensions.doppel]\nsecrets_file = \"" ++ p ++ "\"\n"
  | none => "# [extensions.doppel]\n# secrets_file = \"\"  # run: doppel init <path>\n"

/-- `print_config`. -/
def print (fc : Option FileConfig) : Text :=
  Text.concat [
    "port = " ++ decimalText cli.port.toNat ++ "\n",
    "host = \"" ++ cli.host ++ "\"\n",
    "db = \"" ++ cli.printedDb dirs ++ "\"\n",
    "ttl = " ++ decimalText cli.ttl.toNat ++ "\n",
    "timeout = " ++ decimalText cli.timeout.toNat ++ "\n",
    "body_limit = " ++ decimalText cli.bodyLimit.toNat ++ "\n",
    printUpstream "anthropic_upstream" cli.anthropicUpstream,
    printUpstream "openai_upstream" cli.openaiUpstream,
    printUpstream "openrouter_upstream" cli.openrouterUpstream,
    printUpstream "gemini_upstream" cli.geminiUpstream,
    "\n",
    printSecrets (cli.doppelSecrets fc)]

end Cli

/-! ### The program -/

/-- What the program is run on, with the libraries it uses. -/
structure Machine (σ : Type) where
  commandLine : CommandLine
  env : Environment
  /-- `read_to_string`. -/
  readToString : OsString → Option Text
  dirs : Dirs
  /-- `toml::from_str`. -/
  fromToml : Text → Option FileConfig
  /-- The parser of socket addresses. -/
  parseAddr : Text → Option σ
  fromSecretsFile : OsString → Except Text Extension
  keyCrates : KeyCrates
  cacheCrates : CacheCrates
  version : Text
  traceQuery : Option Text → Option Bool

/-- A server that is up. -/
structure Listening (σ : Type) where
  addr : σ
  dbPath : OsString
  timeoutSeconds : UInt64
  streamChannelCapacity : Nat
  site : Site

inductive Outcome (σ : Type) where
  | panicked
  | usage
  | printed (text : Text)
  | failed
  | serving (server : Listening σ)

namespace Machine

variable {σ : Type} (m : Machine σ)

def configPath : OsString :=
  ((configPathFromArgs m.commandLine.args m.env).map Text.bytes).getD m.dirs.defaultConfigPath

/-- A file that is missing or malformed is ignored. -/
def fileConfig : Option FileConfig := (m.readToString m.configPath).bind m.fromToml

/-- The environment after the file; `none` is a panic. -/
def seeded : Option Environment :=
  match m.fileConfig with
  | some fc => fc.seedEnv m.env
  | none => some m.env

def cli : Option Cli := m.seeded.bind (Cli.parse m.commandLine)

def buildExtensionPipeline (ext : Option ExtensionsConfig) : List Extension :=
  match ext.bind fun ext => ext.doppel.bind DoppelConfig.secretsFile with
  | some rawPath =>
      match m.fromSecretsFile (m.dirs.expandTilde rawPath) with
      | .ok swap => [swap]
      | .error _ => []
  | none => []

/-- The text that the address is parsed from. -/
def addrText (cli : Cli) : Text := cli.host ++ ":" ++ decimalText cli.port.toNat

/-- `run`, with a database that can be opened. -/
def run (cli : Cli) : Outcome σ :=
  match m.parseAddr (addrText cli) with
  | none => .failed
  | some addr => .serving {
      addr
      dbPath := cli.dbPath m.dirs
      timeoutSeconds := cli.timeout
      streamChannelCapacity := 32
      site := {
        cfg := ⟨m.keyCrates, cli.anthropicUpstream, cli.openaiUpstream, cli.openrouterUpstream,
          cli.geminiUpstream, m.buildExtensionPipeline
            ((cli.doppelSecrets m.fileConfig).map fun path => ⟨some ⟨some path⟩⟩)⟩
        cache := ⟨m.cacheCrates, cli.ttl.toNat⟩
        bodyLimitBytes := cli.bodyLimit
        version := m.version
        traceQuery := m.traceQuery } }

def main : Outcome σ :=
  match m.seeded with
  | none => .panicked
  | some env =>
      match Cli.parse m.commandLine env with
      | none => .usage
      | some cli => if cli.printConfig then .printed (cli.print m.dirs m.fileConfig) else m.run cli

end Machine

/-! ### Precedence -/

namespace Environment

variable {env env' : Environment} {name k : Text} {value : Option Text}

theorem seed_of_ne (h : env.seed name value = some env') (hk : k ≠ name) : env' k = env k := by
  unfold seed at h
  split at h
  · split at h
    · unfold setVar at h
      split at h
      · cases h
      · obtain rfl := Option.some.inj h
        exact if_neg hk
    · obtain rfl := Option.some.inj h
      rfl
  · obtain rfl := Option.some.inj h
    rfl

theorem map_var_or (env : Environment) (k : Text) :
    ((env.var k).map Text.bytes).or (env k) = env k := by
  cases hvar : env.var k with
  | none => rfl
  | some t =>
      obtain ⟨bs, hbs, ht⟩ := Option.bind_eq_some_iff.mp hvar
      rw [hbs, ← Text.ofUtf8?_eq_some.mp ht]
      rfl

/-- A value that is text stays, and one that is not goes. -/
theorem seed_self (h : env.seed name value = some env') : env' name =
    ((env.var name).map Text.bytes).or ((value.map Text.bytes).or (env name)) := by
  cases value with
  | none =>
      obtain rfl := Option.some.inj h
      exact (map_var_or env name).symm
  | some v =>
      cases hvar : env.var name with
      | none =>
          simp only [seed, hvar, setVar, if_true] at h
          split at h
          · cases h
          · obtain rfl := Option.some.inj h
            simp
      | some t =>
          have hkept := map_var_or env name
          rw [hvar] at hkept
          obtain rfl : env = env' := by simpa [seed, hvar] using h
          simpa using hkept.symm

theorem seed_eq_none_iff : env.seed name value = none ↔
    ∃ v, value = some v ∧ 0 ∈ v.bytes ∧ env.var name = none := by
  cases value with
  | none => simp [seed]
  | some v =>
      by_cases hvar : env.var name = none
      · simp [seed, setVar, hvar]
      · simp [seed, hvar]

section Seeds
variable {seeds : List (Text × Option Text)}

theorem foldlM_seed_of_not_mem
    (h : seeds.foldlM (fun env seed => env.seed seed.1 seed.2) env = some env')
    (hk : k ∉ seeds.map Prod.fst) : env' k = env k := by
  induction seeds generalizing env with
  | nil =>
      obtain rfl := Option.some.inj h
      rfl
  | cons seed seeds ih =>
      rw [List.map_cons, List.mem_cons, not_or] at hk
      obtain ⟨next, hseed, hrest⟩ := Option.bind_eq_some_iff.mp h
      rw [ih hrest hk.2, seed_of_ne hseed hk.1]

/-- Seeds of different names do not get in each other's way. -/
theorem foldlM_seed (hnodup : (seeds.map Prod.fst).Nodup)
    (h : seeds.foldlM (fun env seed => env.seed seed.1 seed.2) env = some env')
    (hmem : (k, value) ∈ seeds) :
    env' k = ((env.var k).map Text.bytes).or ((value.map Text.bytes).or (env k)) := by
  induction seeds generalizing env with
  | nil => cases hmem
  | cons seed seeds ih =>
      rw [List.map_cons, List.nodup_cons] at hnodup
      obtain ⟨next, hseed, hrest⟩ := Option.bind_eq_some_iff.mp h
      rcases List.mem_cons.mp hmem with rfl | hmem
      · rw [foldlM_seed_of_not_mem hrest hnodup.1, seed_self hseed]
      · have hne : k ≠ seed.1 := by
          rintro rfl
          exact hnodup.1 (List.mem_map.mpr ⟨_, hmem, rfl⟩)
        rw [ih hnodup.2 hrest hmem, var, seed_of_ne hseed hne]
        rfl

/-- One value that cannot be set is enough for a panic. -/
theorem foldlM_seed_eq_none_iff (hnodup : (seeds.map Prod.fst).Nodup) :
    seeds.foldlM (fun env seed => env.seed seed.1 seed.2) env = none ↔
      ∃ k v, (k, some v) ∈ seeds ∧ 0 ∈ v.bytes ∧ env.var k = none := by
  induction seeds generalizing env with
  | nil => simp
  | cons seed seeds ih =>
      obtain ⟨name, value⟩ := seed
      rw [List.map_cons, List.nodup_cons] at hnodup
      rw [List.foldlM_cons]
      cases hseed : env.seed name value with
      | none =>
          obtain ⟨v, rfl, hnul, hvar⟩ := seed_eq_none_iff.mp hseed
          exact iff_of_true rfl ⟨name, v, List.mem_cons_self .., hnul, hvar⟩
      | some next =>
          have hkept {k : Text} {v : Text} (hmem : (k, some v) ∈ seeds) :
              next.var k = env.var k := by
            have hne : k ≠ name := by
              rintro rfl
              exact hnodup.1 (List.mem_map.mpr ⟨_, hmem, rfl⟩)
            rw [var, seed_of_ne hseed hne]
            rfl
          refine (ih hnodup.2).trans ⟨?_, ?_⟩
          · rintro ⟨k, v, hmem, hnul, hvar⟩
            exact ⟨k, v, List.mem_cons_of_mem _ hmem, hnul, (hkept hmem).symm.trans hvar⟩
          · rintro ⟨k, v, hmem, hnul, hvar⟩
            rcases List.mem_cons.mp hmem with heq | hmem
            · obtain ⟨rfl, rfl⟩ := Prod.mk.inj heq
              cases hseed.symm.trans (seed_eq_none_iff.mpr ⟨v, rfl, hnul, hvar⟩)
            · exact ⟨k, v, hmem, hnul, (hkept hmem).trans hvar⟩

end Seeds

end Environment

namespace FileConfig

/-- The value that the file has for an argument. -/
def value (fc : FileConfig) : Arg → Option Text
  | .port => fc.port.map fun n => decimalText n.toNat
  | .host => fc.host
  | .db => fc.db
  | .ttl => fc.ttl.map fun n => decimalText n.toNat
  | .timeout => fc.timeout.map fun n => decimalText n.toNat
  | .bodyLimit => fc.bodyLimit.map fun n => decimalText n.toNat
  | .anthropicUpstream => fc.anthropicUpstream
  | .openaiUpstream => fc.openaiUpstream
  | .openrouterUpstream => fc.openrouterUpstream
  | .geminiUpstream => fc.geminiUpstream
  | .config | .doppelSecretsFile => none

variable {fc : FileConfig} {env env' : Environment}

theorem nodup_seeds : (fc.seeds.map Prod.fst).Nodup := by
  have hnames : fc.seeds.map Prod.fst = ["LCP_PORT", "LCP_HOST", "LCP_DB", "LCP_TTL",
      "LCP_TIMEOUT", "LCP_BODY_LIMIT", "LCP_ANTHROPIC_UPSTREAM", "LCP_OPENAI_UPSTREAM",
      "LCP_OPENROUTER_UPSTREAM", "LCP_GEMINI_UPSTREAM"] := rfl
  rw [hnames]
  decide

/-- The seeds are the values that the file has for arguments. -/
theorem mem_seeds {k v : Text} :
    (k, some v) ∈ fc.seeds ↔ ∃ arg : Arg, k = arg.envVar ∧ fc.value arg = some v := by
  constructor
  · intro h
    simp only [seeds, List.mem_cons, List.not_mem_nil, or_false, Prod.mk.injEq] at h
    rcases h with ⟨rfl, h⟩ | ⟨rfl, h⟩ | ⟨rfl, h⟩ | ⟨rfl, h⟩ | ⟨rfl, h⟩ | ⟨rfl, h⟩ | ⟨rfl, h⟩ |
      ⟨rfl, h⟩ | ⟨rfl, h⟩ | ⟨rfl, h⟩
    · exact ⟨.port, rfl, h.symm⟩
    · exact ⟨.host, rfl, h.symm⟩
    · exact ⟨.db, rfl, h.symm⟩
    · exact ⟨.ttl, rfl, h.symm⟩
    · exact ⟨.timeout, rfl, h.symm⟩
    · exact ⟨.bodyLimit, rfl, h.symm⟩
    · exact ⟨.anthropicUpstream, rfl, h.symm⟩
    · exact ⟨.openaiUpstream, rfl, h.symm⟩
    · exact ⟨.openrouterUpstream, rfl, h.symm⟩
    · exact ⟨.geminiUpstream, rfl, h.symm⟩
  · rintro ⟨arg, rfl, h⟩
    rw [← h]
    cases arg with
    | config | doppelSecretsFile => cases h
    | port | host | db | ttl | timeout | bodyLimit | anthropicUpstream | openaiUpstream
    | openrouterUpstream | geminiUpstream => simp [seeds, value, Arg.envVar]

theorem seedEnv_apply (h : fc.seedEnv env = some env') (arg : Arg) :
    env' arg.envVar = ((env.var arg.envVar).map Text.bytes).or
      (((fc.value arg).map Text.bytes).or (env arg.envVar)) := by
  have hseeded : fc.value arg = none ∧ arg.envVar ∉ fc.seeds.map Prod.fst ∨
      (arg.envVar, fc.value arg) ∈ fc.seeds := by
    cases arg with
    | config | doppelSecretsFile => exact .inl ⟨rfl, by simp only [seeds, List.map_cons]; decide⟩
    | port | host | db | ttl | timeout | bodyLimit | anthropicUpstream | openaiUpstream
    | openrouterUpstream | geminiUpstream => exact .inr (by simp [seeds, value, Arg.envVar])
  rcases hseeded with ⟨hnone, hnames⟩ | hmem
  · rw [Environment.foldlM_seed_of_not_mem h hnames, hnone]
    exact (Environment.map_var_or env _).symm
  · exact Environment.foldlM_seed nodup_seeds h hmem

theorem seedEnv_eq_none_iff : fc.seedEnv env = none ↔
    ∃ (arg : Arg) (v : Text), fc.value arg = some v ∧ 0 ∈ v.bytes ∧ env.var arg.envVar = none := by
  rw [seedEnv, Environment.foldlM_seed_eq_none_iff nodup_seeds]
  constructor
  · rintro ⟨k, v, hmem, hnul, hvar⟩
    obtain ⟨arg, rfl, hvalue⟩ := mem_seeds.mp hmem
    exact ⟨arg, v, hvalue, hnul, hvar⟩
  · rintro ⟨arg, v, hvalue, hnul, hvar⟩
    exact ⟨arg.envVar, v, mem_seeds.mpr ⟨arg, rfl, hvalue⟩, hnul, hvar⟩

end FileConfig

/-! The scan in front of the parser finds the file that the parser finds. -/

/-- A token that the scan passes over. -/
def Aside (token : Text) : Prop := ¬ (Text.ofString "--c").bytes <+: token.bytes

theorem scanConfig_aside {token : Text} (h : Aside token) (rest : List Text) :
    scanConfig (token :: rest) = scanConfig rest := by
  have hne : token ≠ "--config" := by
    rintro rfl
    exact h (by decide)
  have hstrip : Sse.stripPrefix (Text.ofString "--config=").bytes token.bytes = none := by
    apply if_neg
    intro hpre
    have hfront : (Text.ofString "--c").bytes <+: (Text.ofString "--config=").bytes := by decide
    exact h (hfront.trans (List.isPrefixOf_iff_prefix.mp hpre))
  rw [scanConfig, if_neg hne, hstrip]
  rfl

theorem scanConfig_joined (v : Text) (rest : List Text) :
    scanConfig (("--config=" ++ v) :: rest) = some (some v) := by
  have hne : ("--config=" ++ v : Text) ≠ "--config" := by
    intro heq
    have hlen := congrArg (fun t : Text => t.bytes.length) heq
    have hfront : (Text.ofString "--config=").bytes.length = 9 := by decide
    have hwhole : (Text.ofString "--config").bytes.length = 8 := by decide
    simp only [Text.bytes_append, List.length_append, hfront, hwhole] at hlen
    omega
  have hstrip : Sse.stripPrefix (Text.ofString "--config=").bytes
      ("--config=" ++ v : Text).bytes = some v.bytes := by
    rw [Sse.stripPrefix, Text.bytes_append,
      if_pos (List.isPrefixOf_iff_prefix.mpr (List.prefix_append ..)), List.drop_left]
  rw [scanConfig, if_neg hne, hstrip, Option.bind_some, Text.ofUtf8?_eq_some.mpr rfl]

theorem aside_of_not_isFlag {token : Text} (h : isFlag token = false) : Aside token := by
  rintro ⟨rest, hrest⟩
  have hbytes : token.bytes = 0x2D :: 0x2D :: 0x63 :: rest := hrest.symm
  simp [isFlag, hbytes] at h

/-- No other flag begins like `--config`. -/
theorem aside_flag {arg : Arg} (h : arg ≠ .config) (rest : Text) :
    Aside ("--" ++ arg.flag ++ rest) := by
  obtain ⟨b, tail, hflag, hb⟩ : ∃ b tail, arg.flag.bytes = b :: tail ∧ b ≠ 0x63 := by
    cases arg with
    | config => exact absurd rfl h
    | port | host | db | ttl | timeout | bodyLimit | anthropicUpstream | openaiUpstream
    | openrouterUpstream | geminiUpstream | doppelSecretsFile => exact ⟨_, _, rfl, by decide⟩
  rintro ⟨t, ht⟩
  have hbytes : ("--" ++ arg.flag ++ rest : Text).bytes =
      0x2D :: 0x2D :: b :: (tail ++ rest.bytes) := by
    rw [Text.bytes_append, Text.bytes_append, hflag]
    rfl
  rw [hbytes] at ht
  have hcons : (0x2D : UInt8) :: 0x2D :: 0x63 :: t = 0x2D :: 0x2D :: b :: (tail ++ rest.bytes) := ht
  simp only [List.cons.injEq, true_and] at hcons
  exact hb hcons.1.symm

theorem scanConfig_tokens (given : List Given)
    (hseparate : ∀ arg v, .value arg v false ∈ given → isFlag v = false) :
    scanConfig (given.flatMap Given.tokens) =
      (given.findSome? fun
        | .value arg v _ => if arg = .config then some v else none
        | .printConfig => none).map some := by
  induction given with
  | nil => rfl
  | cons g given ih =>
      have ih := ih fun arg v hmem => hseparate arg v (List.mem_cons_of_mem _ hmem)
      rw [List.flatMap_cons, List.findSome?_cons]
      cases g with
      | printConfig =>
          have haside : Aside "--print-config" := by
            unfold Aside
            decide
          exact (scanConfig_aside haside _).trans ih
      | value arg v joined =>
          by_cases hconfig : arg = .config
          · subst hconfig
            cases joined with
            | true => exact scanConfig_joined v _
            | false => rfl
          · simp only [if_neg hconfig]
            cases joined with
            | true =>
                have haside : Aside ("--" ++ arg.flag ++ "=" ++ v) := by
                  rw [Text.append_assoc]
                  exact aside_flag hconfig _
                exact (scanConfig_aside haside _).trans ih
            | false =>
                have haside : Aside ("--" ++ arg.flag) := by
                  rw [← Text.append_empty ("--" ++ arg.flag)]
                  exact aside_flag hconfig _
                have hvalue := hseparate arg v (List.mem_cons_self ..)
                exact (scanConfig_aside haside _).trans
                  ((scanConfig_aside (aside_of_not_isFlag hvalue) _).trans ih)

namespace CommandLine

variable (cl : CommandLine)

theorem scanConfig_args : scanConfig cl.args = (cl.value .config).map some := by
  rw [args, scanConfig_aside (aside_of_not_isFlag cl.named)]
  exact scanConfig_tokens cl.given cl.separate

end CommandLine

namespace Machine

variable {σ : Type} (m : Machine σ)

theorem configPath_eq : m.configPath =
    (((m.commandLine.value .config).or
      ((m.env.var "LCP_CONFIG").filter fun v => v ≠ "")).map Text.bytes).getD
        m.dirs.defaultConfigPath := by
  rw [configPath, configPathFromArgs, CommandLine.scanConfig_args]
  cases m.commandLine.value .config <;> rfl

theorem raw_seeded {env : Environment} (h : m.seeded = some env) (arg : Arg) :
    m.commandLine.raw env arg = ((m.commandLine.value arg).map Text.bytes).or
      (((m.env.var arg.envVar).map Text.bytes).or
        (((m.fileConfig.bind fun fc => fc.value arg).map Text.bytes).or
          ((m.env arg.envVar).or (arg.defaultValue.map Text.bytes)))) := by
  have henv : env arg.envVar = ((m.env.var arg.envVar).map Text.bytes).or
      (((m.fileConfig.bind fun fc => fc.value arg).map Text.bytes).or (m.env arg.envVar)) := by
    rw [seeded] at h
    cases hfile : m.fileConfig with
    | none =>
        rw [hfile] at h
        obtain rfl := Option.some.inj h
        exact (Environment.map_var_or m.env _).symm
    | some fc =>
        rw [hfile] at h
        exact FileConfig.seedEnv_apply h arg
  rw [CommandLine.raw, henv, Option.or_assoc, Option.or_assoc]

theorem seeded_eq_none_iff : m.seeded = none ↔
    ∃ (arg : Arg) (v : Text), (m.fileConfig.bind fun fc => fc.value arg) = some v ∧ 0 ∈ v.bytes ∧
      m.env.var arg.envVar = none := by
  rw [seeded]
  cases m.fileConfig with
  | none => simp
  | some fc => exact FileConfig.seedEnv_eq_none_iff

theorem panicked_iff : m.seeded = none ↔ m.main = .panicked := by
  rw [main]
  split
  · rename_i hnone
    exact iff_of_true hnone rfl
  · rename_i env hsome
    refine iff_of_false (by simp [hsome]) ?_
    split
    · simp
    · split
      · simp
      · rw [run]
        split <;> simp

/-- The program panics where the file has a value with a NUL in it for a variable
that is not there as text, whatever the command line says. Elsewhere an argument
has the value that stands first on the command line, in the environment, in the
file and among the defaults, in this order, and the scan for the file is no
exception. The one exception is a variable that is not text: the value of the file
goes before it. -/
theorem config_precedence :
    m.configPath = (((m.commandLine.value .config).or
        ((m.env.var "LCP_CONFIG").filter fun v => v ≠ "")).map Text.bytes).getD
          m.dirs.defaultConfigPath ∧
      (m.seeded = none ↔ ∃ (arg : Arg) (v : Text),
        (m.fileConfig.bind fun fc => fc.value arg) = some v ∧ 0 ∈ v.bytes ∧
          m.env.var arg.envVar = none) ∧
      (m.seeded = none ↔ m.main = .panicked) ∧
      ∀ env, m.seeded = some env → ∀ arg, (m.commandLine.raw env arg =
          ((m.commandLine.value arg).map Text.bytes).or
            ((m.env arg.envVar).or
              (((m.fileConfig.bind fun fc => fc.value arg).map Text.bytes).or
                (arg.defaultValue.map Text.bytes))) ↔
        m.commandLine.value arg ≠ none ∨ (m.fileConfig.bind fun fc => fc.value arg) = none ∨
          ∀ bs, m.env arg.envVar = some bs → Utf8.Valid bs) := by
  refine ⟨m.configPath_eq, m.seeded_eq_none_iff, m.panicked_iff, fun env hseeded arg => ?_⟩
  rw [m.raw_seeded hseeded]
  cases m.commandLine.value arg with
  | some v => simp
  | none =>
      cases m.fileConfig.bind fun fc => fc.value arg with
      | none =>
          have hvar := Environment.map_var_or m.env arg.envVar
          simp only [Option.map_none, Option.none_or, ← Option.or_assoc, hvar]
          simp
      | some v =>
          cases henv : m.env arg.envVar with
          | none => simp [Environment.var, henv]
          | some bs =>
              by_cases hvalid : Utf8.Valid bs
              · have hvar : m.env.var arg.envVar = some ⟨bs, hvalid⟩ := by
                  rw [Environment.var, henv]
                  exact Text.ofUtf8?_eq_some.mpr rfl
                simp [hvar, hvalid]
              · have hvar : m.env.var arg.envVar = none := by
                  rw [Environment.var, henv]
                  exact Text.ofUtf8?_eq_none.mpr hvalid
                have hne : v.bytes ≠ bs := by
                  rintro rfl
                  exact hvalid v.valid
                simp [hvar, hvalid, hne]

def bareCommandLine : CommandLine := ⟨"lcp", [], by decide, by decide, by simp⟩

/-- Nothing is given, nothing is set and there is no file. -/
noncomputable def bareMachine : Machine Text where
  commandLine := bareCommandLine
  env _ := none
  readToString _ := none
  dirs := ⟨some (Text.ofString "/home/user/.config").bytes,
    some (Text.ofString "/home/user/.cache").bytes, some (Text.ofString "/home/user").bytes⟩
  fromToml _ := none
  parseAddr := some
  fromSecretsFile _ := .error "no secrets"
  keyCrates := ServerConfig.sampleConfig.crates
  cacheCrates := Cache.sampleCrates
  version := "0.1.0"
  traceQuery query := some (query = some ("full=true" : Text))

/-- The file has a NUL in the host. -/
noncomputable def nulMachine : Machine Text :=
  { bareMachine with
    readToString := fun _ => some "host = \"a\\u0000b\"\n"
    fromToml := fun _ =>
      some ⟨none, some "a\x00b", none, none, none, none, none, none, none, none, none⟩ }

theorem config_precedence_nul : nulMachine.main = .panicked := by
  obtain ⟨-, hseeded, hmain, -⟩ := config_precedence nulMachine
  exact hmain.mp (hseeded.mpr ⟨.host, "a\x00b", rfl, by decide, rfl⟩)

end Machine

end LlmCacheProxy
