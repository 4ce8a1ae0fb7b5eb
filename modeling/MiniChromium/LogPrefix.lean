import Mathlib.Algebra.Ring.Nat
import MiniChromium.Delimited
import MiniChromium.Logging
import MiniChromium.UnicodeDigits

/-!
# The prefix of a message

In front of a message are the process, the thread, the time, the severity and the place, all in
one line. They can be told apart again, as far as they are written: the number of characters in
front of the message, which a handler gets, is needed only for names of files with a colon.
-/
namespace MiniChromium.Logging

open Delimited UnicodeDigits

theorem decimal_natCast (n : ℕ) : decimal n = Nat.toDigits 10 n := Nat.toList_repr

theorem isDigit_of_mem_decimal {n : ℕ} {c : Char} (h : c ∈ decimal n) : c.isDigit = true := by
  rw [decimal_natCast] at h
  exact isDigit_of_mem_toDigits h

theorem decimal_negSucc (n : ℕ) : decimal (Int.negSucc n) = '-' :: decimal (n + 1 : ℕ) := by
  rw [decimal_natCast]
  change ("-" ++ (n + 1).repr).toList = _
  rw [String.toList_append, Nat.toList_repr]
  rfl

/-- A number has digits, and a minus sign at most. -/
theorem mem_decimal {n : ℤ} {c : Char} (h : c ∈ decimal n) : c = '-' ∨ c.isDigit = true := by
  cases n with
  | ofNat n => exact .inr (isDigit_of_mem_decimal h)
  | negSucc n =>
    rw [decimal_negSucc] at h
    exact (List.mem_cons.mp h).imp id isDigit_of_mem_decimal

theorem notMem_decimal {n : ℤ} {c : Char} (hminus : c ≠ '-') (hdigit : c.isDigit = false) :
    c ∉ decimal n := by
  intro h
  rcases mem_decimal h with rfl | h
  · exact hminus rfl
  · exact absurd (h.symm.trans hdigit) (by decide)

theorem decimal_natCast_inj {m n : ℕ} : decimal m = decimal n ↔ m = n := by
  constructor
  · intro h
    rw [decimal_natCast, decimal_natCast] at h
    rw [← Nat.ofDigitChars_ten_toDigits (n := m), h, Nat.ofDigitChars_ten_toDigits]
  · rintro rfl
    rfl

theorem decimal_inj {m n : ℤ} : decimal m = decimal n ↔ m = n := by
  constructor
  · intro h
    cases m with
    | ofNat m => cases n with
      | ofNat n => exact congrArg Int.ofNat (decimal_natCast_inj.mp h)
      | negSucc n =>
        rw [decimal_negSucc] at h
        have hmem : '-' ∈ decimal (Int.ofNat m) := h ▸ List.mem_cons_self
        exact absurd (isDigit_of_mem_decimal hmem) (by decide)
    | negSucc m => cases n with
      | ofNat n =>
        rw [decimal_negSucc] at h
        have hmem : '-' ∈ decimal (Int.ofNat n) := h ▸ List.mem_cons_self
        exact absurd (isDigit_of_mem_decimal hmem) (by decide)
      | negSucc n =>
        rw [decimal_negSucc, decimal_negSucc, List.cons_inj_right, decimal_natCast_inj] at h
        rw [Nat.succ_injective h]
  · rintro rfl
    rfl

theorem isDigit_of_mem_zeroFilled {width n : ℕ} {c : Char} (h : c ∈ zeroFilled width n) :
    c.isDigit = true := by
  rcases List.mem_append.mp h with h | h
  · rw [(List.mem_replicate.mp h).2]
    decide
  · exact isDigit_of_mem_decimal h

theorem length_zeroFilled {width n : ℕ} (hwidth : 0 < width) (h : n < 10 ^ width) :
    (zeroFilled width n).length = width := by
  have hle : (decimal n).length ≤ width := by
    rw [decimal_natCast]
    exact (Nat.length_toDigits_le_iff (by decide) hwidth).mpr h
  rw [zeroFilled, List.length_append, List.length_replicate]
  omega

/-- The zeros in front do not count. -/
theorem zeroFilled_inj {width m n : ℕ} : zeroFilled width m = zeroFilled width n ↔ m = n := by
  constructor
  · intro h
    have hvalue : ∀ k : ℕ, Nat.ofDigitChars 10 (zeroFilled width k) 0 = k := fun k => by
      rw [zeroFilled, Nat.ofDigitChars_append, Nat.ofDigitChars_replicate_zero, decimal_natCast,
        Nat.mul_zero, Nat.ofDigitChars_ten_toDigits]
    rw [← hvalue m, h, hvalue]
  · rintro rfl
    rfl

theorem append_zeroFilled_inj {width m n : ℕ} {xs ys : StdString} (hwidth : 0 < width)
    (hm : m < 10 ^ width) (hn : n < 10 ^ width) :
    xs ++ zeroFilled width m = ys ++ zeroFilled width n ↔ xs = ys ∧ m = n := by
  constructor
  · intro h
    have hlength := (length_zeroFilled hwidth hm).trans (length_zeroFilled hwidth hn).symm
    obtain ⟨hfront, hback⟩ := List.append_inj' h hlength
    exact ⟨hfront, zeroFilled_inj.mp hback⟩
  · rintro ⟨rfl, rfl⟩
    rfl

/-- A time of the calendar. -/
structure LogTime.Valid (platform : LogPlatform) (time : LogTime) : Prop where
  month : time.month ≤ 12
  day : time.day ≤ 31
  hour : time.hour ≤ 23
  minute : time.minute ≤ 59
  second : time.second ≤ 60
  fraction : time.fraction < if platform = .windows then 1000 else 1000000

theorem LogTime.Valid.fraction_lt {platform : LogPlatform} {time : LogTime}
    (h : time.Valid platform) :
    time.fraction < 10 ^ (if platform = .windows then 3 else 6) := by
  have hfraction := h.fraction
  split_ifs at hfraction ⊢ <;> simpa using hfraction

theorem timestamp_inj {platform : LogPlatform} {time time' : LogTime}
    (h : time.Valid platform) (h' : time'.Valid platform) :
    timestamp platform time = timestamp platform time' ↔ time = time' := by
  have hwidth : 0 < if platform = .windows then 3 else 6 := by split_ifs <;> decide
  have hsmall : ∀ {n bound : ℕ}, n ≤ bound → bound < 10 ^ 2 → n < 10 ^ 2 :=
    fun hle hlt => hle.trans_lt hlt
  obtain ⟨year, month, day, hour, minute, second, fraction⟩ := time
  obtain ⟨year', month', day', hour', minute', second', fraction'⟩ := time'
  simp only [timestamp, List.append_left_inj, LogTime.mk.injEq, and_assoc,
    append_zeroFilled_inj hwidth h.fraction_lt h'.fraction_lt,
    append_zeroFilled_inj (by decide) (hsmall h.second (by decide)) (hsmall h'.second (by decide)),
    append_zeroFilled_inj (by decide) (hsmall h.minute (by decide)) (hsmall h'.minute (by decide)),
    append_zeroFilled_inj (by decide) (hsmall h.hour (by decide)) (hsmall h'.hour (by decide)),
    append_zeroFilled_inj (by decide) (hsmall h.day (by decide)) (hsmall h'.day (by decide)),
    append_zeroFilled_inj (by decide) (hsmall h.month (by decide)) (hsmall h'.month (by decide)),
    zeroFilled_inj]

/-- The time ends at the first colon. -/
theorem exists_stamp (platform : LogPlatform) (time : LogTime) :
    ∃ stamp, timestamp platform time = stamp ++ [':'] ∧ ':' ∉ stamp := by
  refine ⟨_, rfl, fun h => ?_⟩
  have hdigits : ∀ width n : ℕ, ':' ∉ zeroFilled width n := fun width n h =>
    absurd (isDigit_of_mem_zeroFilled h) (by decide)
  simp [hdigits] at h

theorem severityName_natCast (n : ℕ) : severityName n = logSeverityNames.getD n [] :=
  if_pos (Int.natCast_nonneg n)

theorem severityName_negSucc (n : ℕ) :
    severityName (Int.negSucc n) = "VERBOSE".toList ++ decimal (n + 1 : ℕ) := by
  have hneg : ¬Int.negSucc n ≥ 0 := by omega
  rw [severityName, if_neg hneg]
  rfl

/-- A severity is a word in capital letters, or a word and a number. -/
theorem mem_severityName {severity : LogSeverity} {c : Char} (h : c ∈ severityName severity) :
    c.isUpper = true ∨ c = '_' ∨ c = '-' ∨ c.isDigit = true := by
  have hword : ∀ word : StdString, word.all (fun c => c.isUpper || c == '_') = true →
      c ∈ word → c.isUpper = true ∨ c = '_' := fun word hall hmem => by
    simpa using List.all_eq_true.mp hall c hmem
  cases severity with
  | ofNat n =>
    rw [Int.ofNat_eq_natCast, severityName_natCast, List.getD_eq_getElem?_getD] at h
    cases hname : logSeverityNames[n]? with
    | none =>
      rw [hname] at h
      exact absurd h List.not_mem_nil
    | some name =>
      rw [hname] at h
      have hnames : logSeverityNames.all (fun name => name.all fun c => c.isUpper || c == '_') =
        true := by decide
      have hall := List.all_eq_true.mp hnames name (List.mem_of_getElem? hname)
      exact (hword name hall h).imp_right .inl
  | negSucc n =>
    rw [severityName_negSucc, List.mem_append] at h
    rcases h with h | h
    · exact (hword _ (by decide) h).imp_right .inl
    · exact .inr (.inr (mem_decimal h))

theorem space_notMem_severityName (severity : LogSeverity) : ' ' ∉ severityName severity :=
  fun h => absurd (mem_severityName h) (by decide)

/-- The severities up to `LOG_FATAL` have names of their own. -/
theorem severityName_inj {severity severity' : LogSeverity} (h : severity ≤ fatal)
    (h' : severity' ≤ fatal) : severityName severity = severityName severity' ↔
      severity = severity' := by
  constructor
  · intro heq
    have hnames : ∀ m < 5, ∀ n < 5,
        logSeverityNames.getD m [] = logSeverityNames.getD n [] → m = n := by decide
    have hverbose : ∀ n < 5, (logSeverityNames.getD n []).head? ≠ some 'V' := by decide
    have hsmall : ∀ {n : ℕ}, Int.ofNat n ≤ fatal → n < 5 := fun hle =>
      Nat.lt_succ_of_le (Int.ofNat_le.mp hle)
    cases severity with
    | ofNat m =>
      rw [Int.ofNat_eq_natCast, severityName_natCast] at heq
      cases severity' with
      | ofNat n =>
        rw [Int.ofNat_eq_natCast, severityName_natCast] at heq
        rw [hnames m (hsmall h) n (hsmall h') heq]
      | negSucc n =>
        rw [severityName_negSucc] at heq
        exact absurd (congrArg List.head? heq) (hverbose m (hsmall h))
    | negSucc m =>
      rw [severityName_negSucc] at heq
      cases severity' with
      | ofNat n =>
        rw [Int.ofNat_eq_natCast, severityName_natCast] at heq
        exact absurd (congrArg List.head? heq.symm) (hverbose n (hsmall h'))
      | negSucc n =>
        rw [severityName_negSucc, List.append_right_inj, decimal_natCast_inj] at heq
        rw [Nat.succ_injective heq]
  · rintro rfl
    rfl

section Prefix

variable {g : LogGlobals} {env env' : LogEnvironment} {location location' : Location}
  {severity severity' : LogSeverity} {text text' : StdString}

/-- The process, the thread and the time, which Fuchsia has elsewhere. -/
def processPart (platform : LogPlatform) (env : LogEnvironment) : StdString :=
  if platform = .fuchsia then []
  else ['['] ++ decimal env.pid ++ [':'] ++ decimal env.thread ++ [':'] ++
    timestamp platform env.time

/-- The severity and the place. -/
def placePart (platform : LogPlatform) (location : Location) (severity : LogSeverity) : StdString :=
  severityName severity ++ [' '] ++ fileName platform location.filePath ++ [':'] ++
    decimal location.line ++ "] ".toList

/-- The front of a line tells the process, the thread and the time. -/
theorem processPart_inj {platform : LogPlatform} {rest rest' : StdString}
    (hplatform : platform ≠ .fuchsia) (htime : env.time.Valid platform)
    (htime' : env'.time.Valid platform)
    (h : processPart platform env ++ rest = processPart platform env' ++ rest') :
    (env.pid = env'.pid ∧ env.thread = env'.thread ∧ env.time = env'.time) ∧ rest = rest' := by
  have hcolon : ∀ n : ℕ, ':' ∉ decimal n := fun n => notMem_decimal (by decide) (by decide)
  obtain ⟨stamp, hstamp, hnocolon⟩ := exists_stamp platform env.time
  obtain ⟨stamp', hstamp', hnocolon'⟩ := exists_stamp platform env'.time
  rw [processPart, processPart, if_neg hplatform, if_neg hplatform, hstamp, hstamp'] at h
  simp only [List.append_assoc, List.cons_append, List.nil_append, List.cons.injEq, true_and] at h
  rw [append_cons_inj (hcolon _) (hcolon _), decimal_natCast_inj,
    append_cons_inj (hcolon _) (hcolon _), decimal_natCast_inj,
    append_cons_inj hnocolon hnocolon'] at h
  obtain ⟨hpid, hthread, hstampeq, hrest⟩ := h
  have htimestamp : timestamp platform env.time = timestamp platform env'.time := by
    rw [hstamp, hstamp', hstampeq]
  exact ⟨⟨hpid, hthread, (timestamp_inj htime htime').mp htimestamp⟩, hrest⟩

/-- What is known of two messages for their places to be told apart: where the text begins, or
that there is no colon in the names of the files. -/
theorem placePart_inj {platform : LogPlatform} (hseverity : severity ≤ fatal)
    (hseverity' : severity' ≤ fatal)
    (hplace : (placePart platform location severity).length =
        (placePart platform location' severity').length ∨
      ':' ∉ fileName platform location.filePath ∧ ':' ∉ fileName platform location'.filePath)
    (h : placePart platform location severity ++ text =
      placePart platform location' severity' ++ text') :
    (severity = severity' ∧
      fileName platform location.filePath = fileName platform location'.filePath ∧
      location.line = location'.line) ∧ text = text' := by
  have hspace := space_notMem_severityName
  have hcolon : ∀ n : ℤ, ':' ∉ decimal n ++ "] ".toList := fun n hmem => by
    rcases List.mem_append.mp hmem with hmem | hmem
    · exact notMem_decimal (by decide) (by decide) hmem
    · exact absurd hmem (by decide)
  have hbracket : ∀ n : ℤ, ']' ∉ decimal n := fun n => notMem_decimal (by decide) (by decide)
  have hplaceeq : ∀ (location : Location) (severity : LogSeverity),
      placePart platform location severity = severityName severity ++ ' ' ::
        (fileName platform location.filePath ++ ':' :: (decimal location.line ++ "] ".toList)) :=
    fun location severity => by simp [placePart]
  rcases hplace with hlength | ⟨hfile, hfile'⟩
  · obtain ⟨hfront, htext⟩ := List.append_inj h hlength
    rw [hplaceeq, hplaceeq, append_cons_inj (hspace _) (hspace _),
      severityName_inj hseverity hseverity', append_cons_inj_right (hcolon _) (hcolon _),
      List.append_left_inj, decimal_inj] at hfront
    exact ⟨hfront, htext⟩
  · have hbody : ∀ (n : ℤ) (text : StdString),
        decimal n ++ "] ".toList ++ text = decimal n ++ ']' :: (' ' :: text) :=
      fun n text => List.append_assoc _ _ _
    rw [hplaceeq, hplaceeq, List.append_assoc, List.append_assoc, List.cons_append,
      List.cons_append, append_cons_inj (hspace _) (hspace _),
      severityName_inj hseverity hseverity', List.append_assoc, List.append_assoc,
      List.cons_append, List.cons_append, append_cons_inj hfile hfile', hbody, hbody,
      append_cons_inj (hbracket _) (hbracket _), decimal_inj, List.cons_inj_right] at h
    exact ⟨⟨h.1, h.2.1, h.2.2.1⟩, h.2.2.2⟩

/-- Two messages are of one origin, as far as their prefixes tell: there is no process, thread
and time on Fuchsia, and no severity and place if it does not write to the standard error
output. -/
structure SameOrigin (g : LogGlobals) (env env' : LogEnvironment) (location location' : Location)
    (severity severity' : LogSeverity) : Prop where
  process : g.platform ≠ .fuchsia →
    env.pid = env'.pid ∧ env.thread = env'.thread ∧ env.time = env'.time
  place : g.platform ≠ .fuchsia ∨ g.loggingDestination &&& logToStderr ≠ 0 →
    severity = severity' ∧
      fileName g.platform location.filePath = fileName g.platform location'.filePath ∧
      location.line = location'.line

/-- The prefix of a message. -/
def messagePrefix (g : LogGlobals) (env : LogEnvironment) (location : Location)
    (severity : LogSeverity) : StdString := (LogMessage.ofSeverity g env location severity).stream

theorem messagePrefix_of_place
    (hplace : g.platform ≠ .fuchsia ∨ g.loggingDestination &&& logToStderr ≠ 0) :
    messagePrefix g env location severity =
      processPart g.platform env ++ placePart g.platform location severity := by
  have hwritten : ¬(g.platform = .fuchsia ∧ g.loggingDestination &&& logToStderr = 0) :=
    not_and_or.mpr hplace
  rw [messagePrefix, LogMessage.ofSeverity]
  simp only [if_neg hwritten]
  rfl

theorem messagePrefix_of_no_place (hplatform : g.platform = .fuchsia)
    (hstderr : g.loggingDestination &&& logToStderr = 0) :
    messagePrefix g env location severity = [] := by
  rw [messagePrefix, LogMessage.ofSeverity]
  simp only [if_pos hplatform, if_pos (And.intro hplatform hstderr)]
  rfl

/-- One origin, one prefix. -/
theorem SameOrigin.messagePrefix_eq
    (h : SameOrigin g env env' location location' severity severity') :
    messagePrefix g env location severity = messagePrefix g env' location' severity' := by
  by_cases hplace : g.platform ≠ .fuchsia ∨ g.loggingDestination &&& logToStderr ≠ 0
  · rw [messagePrefix_of_place hplace, messagePrefix_of_place hplace]
    obtain ⟨hseverity, hfile, hline⟩ := h.place hplace
    rw [placePart, placePart, hseverity, hfile, hline]
    by_cases hplatform : g.platform = .fuchsia
    · rw [processPart, processPart, if_pos hplatform, if_pos hplatform]
    · obtain ⟨hpid, hthread, htime⟩ := h.process hplatform
      rw [processPart, processPart, hpid, hthread, htime]
  · rw [not_or, not_not, not_not] at hplace
    rw [messagePrefix_of_no_place hplace.1 hplace.2, messagePrefix_of_no_place hplace.1 hplace.2]

/-- The prefix and what is behind it are told apart, if it is known how long the prefix is, or
that there is no colon in the names of the files. -/
theorem messagePrefix_append_inj (htime : env.time.Valid g.platform)
    (htime' : env'.time.Valid g.platform) (hseverity : severity ≤ fatal)
    (hseverity' : severity' ≤ fatal)
    (hstart : (messagePrefix g env location severity).length =
        (messagePrefix g env' location' severity').length ∨
      ':' ∉ fileName g.platform location.filePath ∧ ':' ∉ fileName g.platform location'.filePath) :
    messagePrefix g env location severity ++ text =
        messagePrefix g env' location' severity' ++ text' ↔
      SameOrigin g env env' location location' severity severity' ∧ text = text' := by
  constructor
  · intro h
    by_cases hplace : g.platform ≠ .fuchsia ∨ g.loggingDestination &&& logToStderr ≠ 0
    · rw [messagePrefix_of_place hplace, messagePrefix_of_place hplace] at h hstart
      rw [List.append_assoc, List.append_assoc] at h
      rw [List.length_append, List.length_append] at hstart
      by_cases hplatform : g.platform = .fuchsia
      · have hempty : ∀ env, processPart g.platform env = [] := fun env => if_pos hplatform
        rw [hempty, hempty] at h hstart
        have hlength := hstart.imp_left Nat.add_left_cancel
        obtain ⟨hfields, htext⟩ := placePart_inj hseverity hseverity' hlength h
        exact ⟨⟨fun hne => absurd hplatform hne, fun _ => hfields⟩, htext⟩
      · obtain ⟨hprocess, hrest⟩ := processPart_inj hplatform htime htime' h
        have hpart : processPart g.platform env = processPart g.platform env' := by
          rw [processPart, processPart, hprocess.1, hprocess.2.1, hprocess.2.2]
        rw [hpart] at hstart
        have hlength := hstart.imp_left Nat.add_left_cancel
        obtain ⟨hfields, htext⟩ := placePart_inj hseverity hseverity' hlength hrest
        exact ⟨⟨fun _ => hprocess, fun _ => hfields⟩, htext⟩
    · rw [not_or, not_not, not_not] at hplace
      rw [messagePrefix_of_no_place hplace.1 hplace.2,
        messagePrefix_of_no_place hplace.1 hplace.2] at h
      refine ⟨⟨fun hne => absurd hplace.1 hne, fun hwritten => ?_⟩, h⟩
      exact absurd hwritten (not_or.mpr ⟨not_not.mpr hplace.1, not_not.mpr hplace.2⟩)
  · rintro ⟨horigin, rfl⟩
    rw [horigin.messagePrefix_eq]

/-- A prefix has no NUL, since the name of a file is a C string. -/
theorem nul_notMem_messagePrefix (hfile : nul ∉ location.filePath) :
    nul ∉ messagePrefix g env location severity := by
  have hdecimal : ∀ n : ℤ, nul ∉ decimal n := fun n => notMem_decimal (by decide) (by decide)
  have hzeroFilled : ∀ width n : ℕ, nul ∉ zeroFilled width n := fun width n h =>
    absurd (isDigit_of_mem_zeroFilled h) (by decide)
  have hname : nul ∉ fileName g.platform location.filePath := fun h =>
    hfile ((List.rtakeWhile_suffix _ _).subset h)
  have hseverity : nul ∉ severityName severity := fun h =>
    absurd (mem_severityName h) (by decide)
  have hmark : nul ≠ ':' ∧ nul ≠ '[' ∧ nul ≠ ']' ∧ nul ≠ ' ' ∧ nul ≠ ',' ∧ nul ≠ '.' := by
    decide
  by_cases hplace : g.platform ≠ .fuchsia ∨ g.loggingDestination &&& logToStderr ≠ 0
  · rw [messagePrefix_of_place hplace, processPart, placePart, timestamp]
    split_ifs <;> simp [hdecimal, hzeroFilled, hname, hseverity, hmark]
  · rw [not_or, not_not, not_not] at hplace
    rw [messagePrefix_of_no_place hplace.1 hplace.2]
    exact List.not_mem_nil

theorem cStr_append {front rest : StdString} (h : nul ∉ front) :
    cStr (front ++ rest) = front ++ cStr rest := by
  refine List.takeWhile_append_of_pos fun c hc => decide_eq_true ?_
  rintro rfl
  exact h hc

/-- What a message is made of can be read off what a handler gets, as far as the prefix is
written. On the standard error output, where the names of the files must not have a colon, the
text can be read up to its first NUL. -/
theorem ofSeverity_append_inj (htime : env.time.Valid g.platform)
    (htime' : env'.time.Valid g.platform) (hseverity : severity ≤ fatal)
    (hseverity' : severity' ≤ fatal) (hfile : nul ∉ location.filePath)
    (hfile' : nul ∉ location'.filePath) (text text' : StdString) :
    let m := (LogMessage.ofSeverity g env location severity).append text
    let m' := (LogMessage.ofSeverity g env' location' severity').append text'
    (m.strNewline = m'.strNewline ∧ m.messageStart = m'.messageStart ↔
        SameOrigin g env env' location location' severity severity' ∧ text = text') ∧
      (':' ∉ fileName g.platform location.filePath →
        ':' ∉ fileName g.platform location'.filePath →
          (cStr m.strNewline = cStr m'.strNewline ↔
            SameOrigin g env env' location location' severity severity' ∧
              cStr (text ++ ['\n']) = cStr (text' ++ ['\n']))) := by
  have hline : ∀ env location severity text,
      ((LogMessage.ofSeverity g env location severity).append text).strNewline =
        messagePrefix g env location severity ++ (text ++ ['\n']) :=
    fun _ _ _ _ => List.append_assoc _ _ _
  have hstart : ∀ env location severity text,
      ((LogMessage.ofSeverity g env location severity).append text).messageStart =
        (messagePrefix g env location severity).length := fun _ _ _ _ => rfl
  constructor
  · rw [hline, hline, hstart, hstart]
    constructor
    · rintro ⟨h, hlength⟩
      rw [messagePrefix_append_inj htime htime' hseverity hseverity' (.inl hlength),
        List.append_left_inj] at h
      exact h
    · rintro ⟨horigin, rfl⟩
      rw [horigin.messagePrefix_eq]
      exact ⟨rfl, rfl⟩
  · intro hcolon hcolon'
    rw [hline, hline, cStr_append (nul_notMem_messagePrefix hfile),
      cStr_append (nul_notMem_messagePrefix hfile')]
    exact messagePrefix_append_inj htime htime' hseverity hseverity' (.inr ⟨hcolon, hcolon'⟩)

/-- Messages on the standard error output, of one process at one time. -/
def stderrGlobals : LogGlobals := ⟨.linux, none, logToStderr⟩

def oneEnvironment : LogEnvironment := ⟨1, 2, ⟨2024, 3, 4, 5, 6, 7, 8⟩, 0, fun _ => [], true⟩

theorem oneEnvironment_valid : oneEnvironment.time.Valid stderrGlobals.platform := by
  constructor <;> decide

/-- Texts that differ behind a NUL are two texts for a handler, and one on the standard error
output. -/
theorem ofSeverity_append_inj_nul :
    let location : Location := ⟨"d/a.cc".toList, 9⟩
    let m := LogMessage.ofSeverity stderrGlobals oneEnvironment location (-1)
    ¬((m.append ['a', nul, 'b']).strNewline = (m.append ['a', nul, 'c']).strNewline ∧
        (m.append ['a', nul, 'b']).messageStart = (m.append ['a', nul, 'c']).messageStart) ∧
      cStr (m.append ['a', nul, 'b']).strNewline = cStr (m.append ['a', nul, 'c']).strNewline := by
  intro location m
  have hseverity : (-1 : LogSeverity) ≤ fatal := by decide
  have hfile : nul ∉ location.filePath := by decide
  have hcolon : ':' ∉ fileName stderrGlobals.platform location.filePath := by decide
  have hinj := ofSeverity_append_inj oneEnvironment_valid oneEnvironment_valid hseverity hseverity
    hfile hfile ['a', nul, 'b'] ['a', nul, 'c']
  have horigin : SameOrigin stderrGlobals oneEnvironment oneEnvironment location location (-1)
      (-1) := ⟨fun _ => ⟨rfl, rfl, rfl⟩, fun _ => ⟨rfl, rfl, rfl⟩⟩
  exact ⟨fun h => absurd (hinj.1.mp h).2 (by decide), (hinj.2 hcolon hcolon).mpr ⟨horigin, rfl⟩⟩

/-- With a colon in a name, the text alone does not tell two places apart. -/
example :
    ((LogMessage.ofSeverity stderrGlobals oneEnvironment ⟨"a:1] b".toList, 2⟩ 0).append
        "x".toList).strNewline =
      ((LogMessage.ofSeverity stderrGlobals oneEnvironment ⟨"a".toList, 1⟩ 0).append
        "b:2] x".toList).strNewline :=
  rfl

end Prefix

end MiniChromium.Logging
