import NonceSweep.Outcome.Fingerprint
import NonceSweep.Work.Placement

/-!
# The options of the command line

There are two kinds of options: a `Switch` takes no value, a `Setting` takes one. Both are spelled with two
dashes and a name; one switch has a second spelling.

## Contents

- `Switch`, `Setting`, `Choice`: the options
- `Choice.named?`: the option of a name
- `Switch.shown`, `Setting.shown`: how messages name an option
-/

namespace NonceSweep.CommandLine

/-! ## Switches -/

/-- An option without a value. -/
inductive Switch where
  | mine
  | verify
  | jit
  | secure
  | largePages
  | softAes
  | ssse3
  | avx2
  | auto
  | noBatch
  | commit
  | check
  | json
deriving DecidableEq, Repr

namespace Switch

/-- All switches, in the order in which help lists them. -/
def all : List Switch :=
  [.mine, .verify, .jit, .secure, .largePages, .softAes, .ssse3, .avx2, .auto, .noBatch, .commit, .check,
    .json]

def name : Switch → String
  | .mine => "mine"
  | .verify => "verify"
  | .jit => "jit"
  | .secure => "secure"
  | .largePages => "largePages"
  | .softAes => "softAes"
  | .ssse3 => "ssse3"
  | .avx2 => "avx2"
  | .auto => "auto"
  | .noBatch => "noBatch"
  | .commit => "commit"
  | .check => "check"
  | .json => "json"

/-- Further names of a switch. -/
def otherNames : Switch → List String
  | .largePages => ["largepages"]
  | _ => []

def help : Switch → String
  | .mine => "Mining mode: precompute the full dataset"
  | .verify => "Verification mode: cache only (default)"
  | .jit => "JIT compiled mode (default: interpreter)"
  | .secure => "W^X policy for JIT pages"
  | .largePages => "Use large pages"
  | .softAes => "Use software AES"
  | .ssse3 => "Use the SSSE3 dataset initialization kernel"
  | .avx2 => "Use the AVX2 dataset initialization kernel"
  | .auto => "Select the best options for the current CPU"
  | .noBatch => "Calculate hashes one by one (default: batch)"
  | .commit => "Merge commitments instead of hashes"
  | .check => "Also check that light and full profiles hash the template identically"
  | .json => "Print the report as JSON"

def shown (s : Switch) : String := "--" ++ s.name

end Switch

/-! ## Settings -/

/-- An option with a value. -/
inductive Setting where
  | threads
  | affinity
  | init
  | nonces
  | seed
  | expect
deriving DecidableEq, Repr

namespace Setting

/-- All settings, in the order in which help lists them. -/
def all : List Setting := [.threads, .affinity, .init, .nonces, .seed, .expect]

def name : Setting → String
  | .threads => "threads"
  | .affinity => "affinity"
  | .init => "init"
  | .nonces => "nonces"
  | .seed => "seed"
  | .expect => "expect"

/-- What stands for the value of a setting. -/
def placeholder : Setting → String
  | .threads => "THREADS"
  | .affinity => "AFFINITY"
  | .init => "INIT_THREADS"
  | .nonces => "NONCES"
  | .seed => "SEED"
  | .expect => "HEX"

def help : Setting → String
  | .threads => "Number of worker threads [default: 1]"
  | .affinity => "Thread affinity bitmask, decimal or 0x-hex (0 = no pinning) [default: 0]"
  | .init => "Initialize the dataset with this many threads [default: 1]"
  | .nonces => "Hash nonces 0..N [default: 1000]"
  | .seed => "Seed for cache initialization [default: 0]"
  | .expect => "Fail unless the final fingerprint equals this hex value"

def shown (s : Setting) : String := "--" ++ s.name ++ " <" ++ s.placeholder ++ ">"

end Setting

/-! ## Options by name -/

/-- What a name stands for. -/
inductive Choice where
  | switch (s : Switch)
  | setting (s : Setting)
  | help
  | version
deriving DecidableEq, Repr

namespace Choice

/-- The option of a name. -/
def named? (name : String) : Option Choice :=
  if name = "help" then some .help
  else if name = "version" then some .version
  else
    match Switch.all.find? fun s => s.name == name || s.otherNames.contains name with
    | some s => some (.switch s)
    | none => (Setting.all.find? fun s => s.name == name).map .setting

def shown : Choice → String
  | .switch s => s.shown
  | .setting s => s.shown
  | .help => "--help"
  | .version => "--version"

end Choice

end NonceSweep.CommandLine
