/-!
# LogLevel — how important a log record is

Levels have the usual numbers. A setting names the least level that is kept; a name that is not
known stands for warnings.
-/

namespace DispatchLisp

/-- The importance of a log record. -/
inductive LogLevel where
  | debug
  | info
  | warning
  | error
  | critical
deriving DecidableEq

namespace LogLevel

/-- The number of a level. -/
def number : LogLevel → Nat
  | .debug => 10
  | .info => 20
  | .warning => 30
  | .error => 40
  | .critical => 50

/-- The name of a level. -/
def name : LogLevel → String
  | .debug => "DEBUG"
  | .info => "INFO"
  | .warning => "WARNING"
  | .error => "ERROR"
  | .critical => "CRITICAL"

/-- The capital of a letter, for the letters that have a capital among `A` to `Z`. -/
def capital (c : Char) : Char :=
  if c = 'ı' then 'I' else if c = 'ſ' then 'S' else c.toUpper

/-- The number that a setting names, in letters of either case: that of a level or one of its
other names, or zero for no threshold of its own. Without a known name it is that of warnings. -/
def numberOfSetting (setting : Option String) : Nat :=
  match setting with
  | none => warning.number
  | some text =>
    match String.ofList (text.toList.map capital) with
    | "CRITICAL" | "FATAL" => critical.number
    | "ERROR" => error.number
    | "WARN" | "WARNING" => warning.number
    | "INFO" => info.number
    | "DEBUG" => debug.number
    | "NOTSET" => 0
    | _ => warning.number

/-- The least number of a record that is kept: without a threshold of its own a log keeps
warnings. -/
def threshold (number : Nat) : Nat :=
  if number = 0 then warning.number else number

end LogLevel

/-- A log record. -/
structure LogRecord where
  level : LogLevel
  message : String

end DispatchLisp
