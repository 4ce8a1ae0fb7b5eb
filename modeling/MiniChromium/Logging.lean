import Mathlib.Data.List.DropRight
import Mathlib.Tactic.Common

/-!
# Log messages and checks

A message is built by a constructor, streamed into, and flushed by its destructor. What ends
the process when a check fails is the destructor: that of the fatal classes always does, that
of the plain class only if no handler takes the message. A string is a list of characters.
-/
namespace MiniChromium.Logging

abbrev StdString := List Char

abbrev LogSeverity := ℤ

/-- `LOG_FATAL`. -/
def fatal : LogSeverity := 4

/-- `log_severity_names`. -/
def logSeverityNames : List StdString :=
  ["INFO".toList, "WARNING".toList, "ERROR".toList, "ERROR_REPORT".toList, "FATAL".toList]

abbrev LoggingDestination := BitVec 32

/-- `LOG_TO_SYSTEM_DEBUG_LOG`. -/
def logToSystemDebugLog : LoggingDestination := 1 <<< 1

/-- `LOG_TO_STDERR`. -/
def logToStderr : LoggingDestination := 1 <<< 2

inductive LogPlatform
  | apple | android | linux | windows | fuchsia
  deriving DecidableEq

structure LogTime where
  year : ℕ
  month : ℕ
  day : ℕ
  hour : ℕ
  minute : ℕ
  second : ℕ
  /-- Microseconds, or milliseconds on Windows. -/
  fraction : ℕ

/-- What the system tells a message that is being made or flushed. -/
structure LogEnvironment where
  pid : ℕ
  thread : ℕ
  time : LogTime
  /-- `GetLastSystemErrorCode()`. -/
  lastSystemErrorCode : ℤ
  /-- `base::safe_strerror`, or `SystemErrorCodeToString` on Windows. -/
  systemErrorText : ℤ → StdString
  /-- What the test of `stderr` yields on Apple platforms; the others make none. -/
  logToSystem : Bool

/-- `LogMessageHandlerFunction`: severity, file path, line, start of the message, message. -/
abbrev LogMessageHandlerFunction := LogSeverity → StdString → ℤ → ℕ → StdString → Bool

/-- `g_log_message_handler` and `g_logging_destination`. -/
structure LogGlobals where
  platform : LogPlatform
  logMessageHandler : Option LogMessageHandlerFunction
  loggingDestination : LoggingDestination

/-- `LogMessage`. -/
structure LogMessage where
  stream : StdString
  filePath : StdString
  messageStart : ℕ
  line : ℤ
  severity : LogSeverity

/-- Where a macro stands, `__FILE__` and `__LINE__`. -/
structure Location where
  filePath : StdString
  line : ℤ

inductive LogOutput
  | stderr (text : StdString)
  | systemDebugLog (severity : LogSeverity) (text : StdString)

/-- Whether control comes back or `ImmediateCrash` is reached. -/
inductive Control
  | returns | processEnds
  deriving DecidableEq

/-- A number in the stream, and one that `setw` fills with zeros. -/
def decimal (n : ℤ) : StdString := (toString n).toList

def zeroFilled (width n : ℕ) : StdString :=
  List.replicate (width - (decimal n).length) '0' ++ decimal n

/-- The part of the path behind the last slash. -/
def fileName (platform : LogPlatform) (filePath : StdString) : StdString :=
  filePath.rtakeWhile fun c => !(c == '/' || platform == .windows && c == '\\')

/-- The local time in the prefix of a message. -/
def timestamp (platform : LogPlatform) (time : LogTime) : StdString :=
  zeroFilled 4 time.year ++ zeroFilled 2 time.month ++ zeroFilled 2 time.day ++ [','] ++
    zeroFilled 2 time.hour ++ zeroFilled 2 time.minute ++ zeroFilled 2 time.second ++ ['.'] ++
    zeroFilled (if platform = .windows then 3 else 6) time.fraction ++ [':']

/-- The severity in the prefix of a message. -/
def severityName (severity : LogSeverity) : StdString :=
  if severity ≥ 0 then logSeverityNames.getD severity.toNat []
  else "VERBOSE".toList ++ decimal (-severity)

/-- The constructor with a severity, which is `Init`. -/
def LogMessage.ofSeverity (g : LogGlobals) (env : LogEnvironment) (location : Location)
    (severity : LogSeverity) : LogMessage :=
  let process :=
    if g.platform = .fuchsia then []
    else ['['] ++ decimal env.pid ++ [':'] ++ decimal env.thread ++ [':'] ++
      timestamp g.platform env.time
  let place :=
    if g.platform = .fuchsia ∧ g.loggingDestination &&& logToStderr = 0 then []
    else severityName severity ++ [' '] ++ fileName g.platform location.filePath ++ [':'] ++
      decimal location.line ++ "] ".toList
  { stream := process ++ place
    filePath := location.filePath
    messageStart := (process ++ place).length
    line := location.line
    severity := severity }

/-- `stream() <<`. -/
def LogMessage.append (m : LogMessage) (text : StdString) : LogMessage :=
  { m with stream := m.stream ++ text }

/-- The constructor with the result of a failed comparison. -/
def LogMessage.ofResult (g : LogGlobals) (env : LogEnvironment) (location : Location)
    (result : StdString) : LogMessage :=
  (ofSeverity g env location fatal).append ("Check failed: ".toList ++ result ++ ". ".toList)

/-- `AppendError` of `ErrnoLogMessage` and of `Win32ErrorLogMessage`. -/
def LogMessage.appendError (g : LogGlobals) (env : LogEnvironment) (m : LogMessage) (err : ℤ) :
    LogMessage :=
  m.append (": ".toList ++ env.systemErrorText err ++
    if g.platform = .windows then [] else " (".toList ++ decimal err ++ [')'])

/-- The message as the handler gets it. -/
def LogMessage.strNewline (m : LogMessage) : StdString := m.stream ++ ['\n']

def nul : Char := '\x00'

/-- What a function reads that gets `c_str()`. -/
def cStr (text : StdString) : StdString := text.takeWhile (· ≠ nul)

/-- There is a handler, and it takes the message. -/
def LogGlobals.claims (g : LogGlobals) (m : LogMessage) : Bool :=
  g.logMessageHandler.any fun handler =>
    handler m.severity m.filePath m.line m.messageStart m.strNewline

/-- What the system debug log gets, which Linux does not have. Fuchsia's logger gets the message
without its prefix and its newline, and not as a C string. -/
def LogMessage.toSystemDebugLog (platform : LogPlatform) (env : LogEnvironment) (m : LogMessage) :
    List LogOutput :=
  match platform with
  | .apple => if env.logToSystem then [.systemDebugLog m.severity (cStr m.strNewline)] else []
  | .windows | .android => [.systemDebugLog m.severity (cStr m.strNewline)]
  | .fuchsia => [.systemDebugLog m.severity (m.strNewline.dropLast.drop m.messageStart)]
  | .linux => []

/-- `Flush`. -/
def LogMessage.flush (g : LogGlobals) (env : LogEnvironment) (m : LogMessage) :
    List LogOutput × Control :=
  if g.claims m then ([], .returns)
  else
    let stderr :=
      if g.loggingDestination &&& logToStderr ≠ 0 then [.stderr (cStr m.strNewline)] else []
    let systemDebugLog :=
      if g.loggingDestination &&& logToSystemDebugLog ≠ 0 then m.toSystemDebugLog g.platform env
      else []
    (stderr ++ systemDebugLog, if m.severity = fatal then .processEnds else .returns)

/-- `~LogMessage`. -/
def LogMessage.destroy (g : LogGlobals) (env : LogEnvironment) (m : LogMessage) :
    List LogOutput × Control := m.flush g env

/-- `~LogMessageFatal`: whatever `Flush` does, `ImmediateCrash` is next. -/
def LogMessage.destroyFatal (g : LogGlobals) (env : LogEnvironment) (m : LogMessage) :
    List LogOutput × Control := ((m.flush g env).1, .processEnds)

/-- `~ErrnoLogMessageFatal` and `~Win32ErrorLogMessageFatal`. -/
def LogMessage.destroyErrorFatal (g : LogGlobals) (env : LogEnvironment) (m : LogMessage)
    (err : ℤ) : List LogOutput × Control :=
  (((m.appendError g env err).flush g env).1, .processEnds)

/-- The operators of `DEFINE_CHECK_OP_IMPL`. -/
inductive CheckOp
  | eq | ne | le | lt | ge | gt
  deriving DecidableEq

/-- The operator as the preprocessor spells it. -/
def CheckOp.symbol : CheckOp → StdString
  | eq => "==".toList
  | ne => "!=".toList
  | le => "<=".toList
  | lt => "<".toList
  | ge => ">=".toList
  | gt => ">".toList

/-- What the template needs of two types: every operator, and a way to print the values. -/
structure CheckOperands (α β : Type) where
  test : CheckOp → α → β → Bool
  printLeft : α → StdString
  printRight : β → StdString

/-- The overload for two numbers. -/
def CheckOperands.int : CheckOperands ℤ ℤ where
  test
    | .eq, v1, v2 => decide (v1 = v2)
    | .ne, v1, v2 => decide (v1 ≠ v2)
    | .le, v1, v2 => decide (v1 ≤ v2)
    | .lt, v1, v2 => decide (v1 < v2)
    | .ge, v1, v2 => decide (v1 ≥ v2)
    | .gt, v1, v2 => decide (v1 > v2)
  printLeft := decimal
  printRight := decimal

/-- `MakeCheckOpString`. -/
def makeCheckOpString {α β : Type} (operands : CheckOperands α β) (v1 : α) (v2 : β)
    (names : StdString) : StdString :=
  names ++ " (".toList ++ operands.printLeft v1 ++ " vs. ".toList ++ operands.printRight v2 ++ [')']

/-- `CheckEQImpl` and its siblings; no result where the comparison holds. -/
def checkImpl {α β : Type} (operands : CheckOperands α β) (op : CheckOp) (v1 : α) (v2 : β)
    (names : StdString) : Option StdString :=
  if operands.test op v1 v2 then none else some (makeCheckOpString operands v1 v2 names)

/-- A statement that ends the process when it fails, with what is streamed into it. The source
of a condition and of an operand is its text. -/
inductive Statement
  | check (condition : Bool) (source streamed : StdString)
  | pcheck (condition : Bool) (source streamed : StdString)
  | checkOp {α β : Type} (operands : CheckOperands α β) (op : CheckOp) (v1 : α) (v2 : β)
      (source1 source2 streamed : StdString)
  | logFatal (streamed : StdString)

namespace Statement

/-- The message of a comparison macro that fails, when its statement is over. -/
def checkOpMessage (g : LogGlobals) (env : LogEnvironment) (location : Location)
    (result streamed : StdString) : LogMessage :=
  (LogMessage.ofResult g env location result).append streamed

/-- The statement, with the output that it makes. -/
def run (g : LogGlobals) (env : LogEnvironment) (location : Location) :
    Statement → List LogOutput × Control
  | check condition source streamed =>
    if !condition then
      let m := (LogMessage.ofSeverity g env location fatal).append
        ("Check failed: ".toList ++ source ++ ". ".toList ++ streamed)
      m.destroyFatal g env
    else ([], .returns)
  | pcheck condition source streamed =>
    if !condition then
      let m := (LogMessage.ofSeverity g env location fatal).append
        ("Check failed: ".toList ++ source ++ ". ".toList ++ streamed)
      m.destroyErrorFatal g env env.lastSystemErrorCode
    else ([], .returns)
  | checkOp operands op v1 v2 source1 source2 streamed =>
    match checkImpl operands op v1 v2 (source1 ++ [' '] ++ op.symbol ++ [' '] ++ source2) with
    | some result => (checkOpMessage g env location result streamed).destroy g env
    | none => ([], .returns)
  | logFatal streamed =>
    ((LogMessage.ofSeverity g env location fatal).append streamed).destroyFatal g env

/-- The condition is false; `LOG(FATAL)` has none. -/
def Fails : Statement → Prop
  | check condition _ _ | pcheck condition _ _ => condition = false
  | checkOp operands op v1 v2 _ _ _ => operands.test op v1 v2 = false
  | logFatal _ => True

/-- The statement is a comparison macro, and the handler takes its message. -/
def Claimed (g : LogGlobals) (env : LogEnvironment) (location : Location) : Statement → Prop
  | checkOp operands op v1 v2 source1 source2 streamed =>
    let names := source1 ++ [' '] ++ op.symbol ++ [' '] ++ source2
    g.claims (checkOpMessage g env location (makeCheckOpString operands v1 v2 names) streamed) =
      true
  | _ => False

end Statement

/-- Statements one after the other, each with its place and its time. -/
def runAll (g : LogGlobals) :
    List (LogEnvironment × Location × Statement) → List LogOutput × Control
  | [] => ([], .returns)
  | (env, location, s) :: program =>
    match s.run g env location with
    | (outputs, .processEnds) => (outputs, .processEnds)
    | (outputs, .returns) => (outputs ++ (runAll g program).1, (runAll g program).2)

variable {g : LogGlobals} {env : LogEnvironment} {location : Location}

/-- A fatal message ends the process in `Flush`, if the handler leaves it. -/
theorem LogMessage.flush_ends_iff (m : LogMessage) (h : m.severity = fatal) :
    (m.flush g env).2 = .processEnds ↔ ¬g.claims m = true := by
  by_cases hclaims : g.claims m = true
  · simp [flush, hclaims]
  · simp [flush, hclaims, h]

namespace Statement

/-- A statement whose condition holds does nothing. -/
theorem run_of_not_fails (s : Statement) (h : ¬s.Fails) :
    s.run g env location = ([], .returns) := by
  cases s with
  | check condition source streamed | pcheck condition source streamed =>
    simp only [Fails, Bool.not_eq_false] at h
    simp [run, h]
  | checkOp operands op v1 v2 source1 source2 streamed =>
    simp only [Fails, Bool.not_eq_false] at h
    simp [run, checkImpl, h]
  | logFatal streamed => exact absurd trivial h

/-- A failed statement ends the process, unless it is a comparison macro whose message the
handler takes. -/
theorem run_ends_iff (g : LogGlobals) (env : LogEnvironment) (location : Location) (s : Statement)
    (h : s.Fails) : (s.run g env location).2 = .processEnds ↔ ¬s.Claimed g env location := by
  cases s with
  | check condition source streamed | pcheck condition source streamed =>
    simp only [Fails] at h
    simp [run, h, LogMessage.destroyFatal, LogMessage.destroyErrorFatal, Claimed]
  | checkOp operands op v1 v2 source1 source2 streamed =>
    simp only [Fails] at h
    simp only [run, checkImpl, h, Bool.false_eq_true, if_false, Claimed]
    exact LogMessage.flush_ends_iff _ rfl
  | logFatal streamed => simp [run, LogMessage.destroyFatal, Claimed]

end Statement

/-- Control reaches the end of a program exactly when each of its statements that fails is a
comparison macro whose message the handler takes. -/
theorem runAll_returns_iff (program : List (LogEnvironment × Location × Statement)) :
    (runAll g program).2 = .returns ↔
      ∀ q ∈ program, q.2.2.Fails → q.2.2.Claimed g q.1 q.2.1 := by
  induction program with
  | nil => simp [runAll]
  | cons q program ih =>
    obtain ⟨env, location, s⟩ := q
    rw [List.forall_mem_cons, ← ih]
    by_cases hs : s.Fails
    · have hends := s.run_ends_iff g env location hs
      cases hrun : s.run g env location with
      | mk outputs control =>
        rw [hrun] at hends
        cases control with
        | returns => simp [runAll, hrun, hs, not_not.mp (mt hends.mpr nofun)]
        | processEnds => simp [runAll, hrun, hs, hends.mp rfl]
    · simp [runAll, s.run_of_not_fails hs, hs]

/-- A system without news, and a handler that takes every message. -/
def quietEnvironment : LogEnvironment := ⟨1, 1, ⟨1970, 1, 1, 0, 0, 0, 0⟩, 0, fun _ => [], true⟩

def claimsAll : LogGlobals := ⟨.linux, some fun _ _ _ _ _ => true, logToStderr⟩

/-- The hypothesis holds of `CHECK(false)`, which ends the process though its message is
taken. -/
theorem run_ends_check :
    ((Statement.check false ['x'] []).run claimsAll quietEnvironment ⟨['f'], 1⟩).2 =
      .processEnds :=
  (Statement.run_ends_iff claimsAll quietEnvironment ⟨['f'], 1⟩ (.check false ['x'] []) rfl).mpr
    nofun

/-- Control returns from `CHECK_EQ(1, 2)`. -/
theorem run_returns_checkEq :
    (Statement.checkOp .int .eq 1 2 ['1'] ['2'] []).Fails ∧
      ((Statement.checkOp .int .eq 1 2 ['1'] ['2'] []).run claimsAll quietEnvironment
        ⟨['f'], 1⟩).2 = .returns :=
  ⟨rfl, rfl⟩

end MiniChromium.Logging
