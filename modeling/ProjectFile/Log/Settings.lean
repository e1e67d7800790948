import ProjectFile.Log.Basic
import ProjectFile.Settings

/-!
Which events a program shows and how: a least level, and whether each event is written as an
object with its source location.
-/

namespace ProjectFile

structure LogSettings where
  level : Level
  asObjects : Bool
  showTarget : Bool
  showLocation : Bool
deriving DecidableEq

namespace LogSettings

/-- Lines with their target for events from `level` on. -/
def ofLevel (level : Level) : LogSettings := ⟨level, false, true, false⟩

/-- Lines for events that inform. -/
def default : LogSettings := ofLevel .info

/-- Objects with everything that is known about an event, for programs that collect them. -/
def production : LogSettings := ⟨.info, true, true, true⟩

/-- What is shown, on the error stream, about a level nobody knows. -/
def unknownLevel (t : Text) : Text := "Unknown log level '" ++ t ++ "', using info"

/-- The level with the given name, with a complaint if there is none. -/
def parseLevel (t : Text) : Level × List Text :=
  match Level.ofName? t with
  | some level => (level, [])
  | none => (.info, [unknownLevel t])

def ofEnvironment (env : Environment) : LogSettings × List Text :=
  let (level, complaints) := ((env.value? "PROJMETA_LOG_LEVEL").map parseLevel).getD (.info, [])
  let base := if (env.truth? "PROJMETA_LOG_JSON").getD false then production else default
  ({ base with level := level }, complaints)

def shows (s : LogSettings) (e : Event) : Bool := s.level.rank ≤ e.level.rank

end LogSettings

end ProjectFile
