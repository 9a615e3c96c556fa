/-!
# Settings of a run

A `Config` sets how a run goes about its work; none of it shows in the result.
A run needs chunks of at least one session.
-/
namespace AsOf

/-- Why settings cannot be used. -/
inductive ConfigError where
  | zeroChunk
  /-- The text is no list of settings. -/
  | malformed
  | noSuchFile

def ConfigError.message : ConfigError → String
  | zeroChunk => "Invalid configuration: chunk_size must be positive"
  | malformed => "Failed to parse configuration"
  | noSuchFile => "IO error: No such file or directory (os error 2)"

/-- Settings of a run. -/
structure Config where
  /-- Sessions computed at a time. -/
  chunkSize : UInt64 := 504
  /-- The terms of a level may be computed side by side. -/
  parallel : Bool := true
  /-- Assets that the screen cannot pass are left out from the start. -/
  prescreen : Bool := true
  /-- A term's values are dropped after their last reader. -/
  releaseIntermediates : Bool := true
deriving DecidableEq, Repr

namespace Config

def default : Config := {}

def validate (c : Config) : Except ConfigError Config :=
  if c.chunkSize = 0 then .error .zeroChunk else .ok c

end Config
end AsOf
