import NonceSweep.Engine.Dimensions

/-!
# Options of the engine

What a caller asks of an engine when it is set up. Only the profile changes what is held in memory; no
option changes a hash.
-/

namespace NonceSweep.Engine

/-! ## Profiles -/

/-- What an engine holds besides the cache. -/
inductive Profile where
  /-- Nothing: dataset items are derived when they are read. -/
  | light
  /-- The whole dataset, derived once. -/
  | full
deriving DecidableEq, Repr

/-- Describes a profile by its memory. -/
def Profile.text : Profile → String
  | .light => "light (" ++ toString (cacheSize / 1024) ++ " KB cache)"
  | .full =>
    "full (" ++ toString (cacheSize / 1024) ++ " KB cache + " ++ toString (datasetSize / 1024) ++
      " KB dataset)"

/-! ## Kernels -/

/-- The code path that a caller wishes for the derivation of the dataset. -/
inductive Kernel where
  | reference
  | ssse3
  | avx2
deriving DecidableEq, Repr

def Kernel.text : Kernel → String
  | .reference => "reference"
  | .ssse3 => "ssse3"
  | .avx2 => "avx2"

/-- What a processor offers. -/
structure Features where
  aes : Bool
  ssse3 : Bool
  avx2 : Bool
deriving DecidableEq, Repr

/-- The fastest kernel that a processor supports. -/
def Kernel.fastest (features : Features) : Kernel :=
  if features.avx2 then .avx2 else if features.ssse3 then .ssse3 else .reference

/-! ## Options -/

/-- The options of an engine. Machine code, its write protection and large pages can be asked for, but
this engine always interprets and uses regular pages. -/
structure Options where
  profile : Profile
  jit : Bool
  secure : Bool
  largePages : Bool
  softAes : Bool
  kernel : Kernel
deriving DecidableEq, Repr

namespace Options

def standard : Options :=
  { profile := .light, jit := false, secure := false, largePages := false, softAes := false
    kernel := .reference }

def withProfile (o : Options) (profile : Profile) : Options := { o with profile }

/-- The options with the choices that the processor decides. -/
def tuned (o : Options) (features : Features) : Options :=
  { o with softAes := !features.aes, kernel := .fastest features }

end Options

end NonceSweep.Engine
