namespace Dominance

/-!
# Settings of a build

A build may check the finished tree and may be limited in the passes it takes.
Neither changes what a build finds.
-/

/-- How a dominator tree is to be built. -/
structure BuildConfig where
  /-- Whether the finished tree is verified. -/
  verifyResult : Bool := false
  /-- How many passes may be made, if there is a limit. -/
  maxPasses : Option Nat := none
  deriving DecidableEq, Repr

namespace BuildConfig

instance : Inhabited BuildConfig := ⟨{}⟩

/-- No verification and no limit. -/
def fast : BuildConfig := {}

/-- Verification and no limit. -/
def strict : BuildConfig := { verifyResult := true }

/-- The same settings with a limit on the passes. -/
def withMaxPasses (config : BuildConfig) (limit : Nat) : BuildConfig :=
  { config with maxPasses := some limit }

end BuildConfig

end Dominance
