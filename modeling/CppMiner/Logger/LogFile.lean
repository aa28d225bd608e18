-- SUMMARY: What threads that log together leave: whole lines, each of one call, and when they read back.
import CppMiner.Lib.Loops
import CppMiner.Logger.Logger

/-!
# The log file

However the threads interleave, the file holds whole lines, one for each call that was not
dropped, those of a thread in the order of its calls, and the console holds the same lines
in colour (`log_is_whole_lines`).

Messages are not escaped. The lines say what was logged exactly when no message has a line
break (`log_reads_back_iff`): one that has reads as several lines, and its sender chooses
all of them but the first.
-/

namespace CppMiner.Logger

open Linearizable (Object Event)

/-! ## Reading a log -/

/-- What follows a prefix. -/
def after? : Bytes → Bytes → Option Bytes
  | [], s => some s
  | _ :: _, [] => none
  | p :: ps, c :: s => if p = c then after? ps s else none

@[simp] theorem after?_append (p s : Bytes) : after? p (p ++ s) = some s := by
  induction p with
  | nil => rfl
  | cons a p ih => simp [after?, ih]

def levelOf? (tag : Bytes) : Option Level :=
  [Level.debug, .info, .warn, .error].find? fun level => levelToString level = tag

theorem levelOf?_levelToString (level : Level) : levelOf? (levelToString level) = some level := by
  cases level <;> decide

/-- The byte that ends a bracket. -/
def closing : UInt8 := ']'.toUInt8

/-- The call that a line was written by. -/
def readLine (s : Bytes) : Option Entry := do
  let s ← after? (bytes "[") s
  let time := s.takeWhile (· ≠ closing)
  let s ← after? (bytes "] [") (s.dropWhile (· ≠ closing))
  let tag := s.takeWhile (· ≠ closing)
  let message ← after? (bytes "] ") (s.dropWhile (· ≠ closing))
  let level ← levelOf? tag
  return { time, level, message }

/-- The calls that a file was written by, if all its lines are ended and each reads. -/
def readLog (file : Bytes) : Option (List Entry) :=
  match Lines.split newline file with
  | (lines, []) => lines.mapM readLine
  | _ => none

/-- What the clock reads is a date: it ends neither a bracket nor a line. -/
def Entry.Dated (e : Entry) : Prop := closing ∉ e.time ∧ newline ∉ e.time

instance (e : Entry) : Decidable e.Dated :=
  inferInstanceAs (Decidable (closing ∉ e.time ∧ newline ∉ e.time))

theorem closing_notMem_levelToString (level : Level) : closing ∉ levelToString level := by
  cases level <;> decide

theorem newline_notMem_levelToString (level : Level) : newline ∉ levelToString level := by
  cases level <;> decide

/-- A field that a bracket ends is cut off there. -/
theorem scan_closing {field : Bytes} (h : closing ∉ field) (rest : Bytes) :
    (field ++ closing :: rest).takeWhile (· ≠ closing) = field ∧
      (field ++ closing :: rest).dropWhile (· ≠ closing) = closing :: rest := by
  refine scan_append (fun c hc => ?_) fun c hc => ?_
  · simpa using fun heq : c = closing => h (heq ▸ hc)
  · cases hc
    simp

theorem readLine_line {e : Entry} (h : e.Dated) : readLine e.line = some e := by
  have hline : e.line = bytes "[" ++ (e.time ++ closing :: bytes " [" ++
      (levelToString e.level ++ closing :: bytes " " ++ e.message)) := by
    simp [Entry.line, bytes, closing]
  have htime := scan_closing h.1
    (bytes " [" ++ (levelToString e.level ++ closing :: bytes " " ++ e.message))
  have htag := scan_closing (closing_notMem_levelToString e.level) (bytes " " ++ e.message)
  simp only [List.append_assoc, List.cons_append] at hline htime htag
  have hopen : closing :: (bytes " [" ++ (levelToString e.level ++ closing ::
      (bytes " " ++ e.message))) =
      bytes "] [" ++ (levelToString e.level ++ closing :: (bytes " " ++ e.message)) := by
    simp [bytes, closing]
  have hclose : closing :: (bytes " " ++ e.message) = bytes "] " ++ e.message := by
    simp [bytes, closing]
  rw [hline, readLine, after?_append]
  simp only [Option.bind_eq_bind, Option.bind_some]
  rw [htime.1, htime.2, hopen, after?_append]
  simp only [Option.bind_some]
  rw [htag.1, htag.2, hclose, after?_append]
  simp only [Option.bind_some, levelOf?_levelToString]
  rfl

theorem newline_mem_line {e : Entry} (h : e.Dated) : newline ∈ e.line ↔ newline ∈ e.message := by
  simp only [Entry.line, List.mem_append, h.2, newline_notMem_levelToString]
  simp [bytes, newline]

theorem split_of_readLog {file : Bytes} {entries : List Entry} (h : readLog file = some entries) :
    Lines.split newline file = (Lines.segments newline file, []) ∧
      (Lines.segments newline file).map readLine = entries.map some := by
  unfold readLog at h
  split at h
  · rename_i lines hsplit
    have hsegments : Lines.segments newline file = lines := by rw [Lines.segments, hsplit]
    rw [hsegments]
    exact ⟨hsplit, Loops.mapM_eq_some_iff.mp h⟩
  · cases h

/-- The lines appended to a log read as the calls that wrote them exactly when none of
their messages has a line break. -/
theorem readLog_append_iff {old : Bytes} {before entries : List Entry}
    (hold : readLog old = some before) (hdated : ∀ e ∈ entries, e.Dated) :
    readLog (old ++ Lines.join newline (entries.map Entry.line)) = some (before ++ entries) ↔
      ∀ e ∈ entries, newline ∉ e.message := by
  obtain ⟨hsplit, hread⟩ := split_of_readLog hold
  constructor
  · intro h
    -- as many lines as calls, so that no line has a break inside
    have hlength := congrArg List.length (split_of_readLog h).2
    have hbefore := congrArg List.length hread
    rw [List.length_map, List.length_map, Lines.length_segments] at hlength hbefore
    rw [List.count_append, hbefore, List.length_append, Nat.add_left_cancel_iff,
      Lines.count_join, List.length_map] at hlength
    intro e he hmem
    have hzero : (entries.map Entry.line).flatten.count newline = 0 := by omega
    have hline : newline ∈ e.line := (newline_mem_line (hdated e he)).mpr hmem
    exact List.count_eq_zero.mp hzero
      (List.mem_flatten_of_mem (List.mem_map_of_mem he) hline)
  · intro h
    have hlines : ∀ l ∈ entries.map Entry.line, newline ∉ l := by
      intro l hl
      obtain ⟨e, he, rfl⟩ := List.mem_map.mp hl
      exact fun hmem => h e he ((newline_mem_line (hdated e he)).mp hmem)
    have hjoin : Lines.split newline (Lines.join newline (entries.map Entry.line) ++ []) =
        (entries.map Entry.line, []) := Lines.split_join hlines List.not_mem_nil
    rw [List.append_nil] at hjoin
    have hall : Lines.split newline (old ++ Lines.join newline (entries.map Entry.line)) =
        (Lines.segments newline old ++ entries.map Entry.line, []) := by
      rw [Lines.split_append, show Lines.remainder newline old = [] by rw [Lines.remainder, hsplit],
        List.nil_append, Lines.segments, Lines.segments, Lines.remainder, hjoin, hsplit]
    rw [readLog, hall]
    refine Loops.mapM_eq_some_iff.mpr ?_
    rw [List.map_append, hread, List.map_append, List.map_map]
    congr 1
    exact List.map_congr_left fun e he => readLine_line (hdated e he)

/-! ## The console -/

/-- What a terminal shows of a text: a colour code ends at its first `m`. -/
def shown : Bool → Bytes → Bytes
  | _, [] => []
  | false, c :: s => if c = escape then shown true s else c :: shown false s
  | true, c :: s => shown (c ≠ 'm'.toUInt8) s

theorem shown_append {s : Bytes} (h : escape ∉ s) (t : Bytes) :
    shown false (s ++ t) = s ++ shown false t := by
  induction s with
  | nil => rfl
  | cons c s ih =>
    rw [List.mem_cons, not_or] at h
    simp [shown, Ne.symm h.1, ih h.2]

@[simp] theorem shown_kGray (s : Bytes) : shown false (kGray ++ s) = shown false s := by
  simp [kGray, bytes, shown]

@[simp] theorem shown_kReset (s : Bytes) : shown false (kReset ++ s) = shown false s := by
  simp [kReset, bytes, shown]

@[simp] theorem shown_colorFor (level : Level) (s : Bytes) :
    shown false (colorFor level ++ s) = shown false s := by
  cases level <;> simp [colorFor, kGray, kCyan, kYellow, kRed, bytes, shown]

theorem escape_notMem_levelToString (level : Level) : escape ∉ levelToString level := by
  cases level <;> decide

/-- The call has no colour codes of its own. -/
def Entry.Plain (e : Entry) : Prop := escape ∉ e.time ∧ escape ∉ e.message

theorem shown_colored {e : Entry} (h : e.Plain) (s : Bytes) :
    shown false (e.colored ++ newline :: s) = e.line ++ newline :: shown false s := by
  have hopen : ∀ t, shown false (bytes "[" ++ t) = bytes "[" ++ shown false t :=
    shown_append (by decide)
  have hclose : ∀ t, shown false (bytes "] " ++ t) = bytes "] " ++ shown false t :=
    shown_append (by decide)
  have hclose' : ∀ t, shown false (bytes "]" ++ t) = bytes "]" ++ shown false t :=
    shown_append (by decide)
  have hblank : ∀ t, shown false (bytes " " ++ t) = bytes " " ++ shown false t :=
    shown_append (by decide)
  have hend : shown false (newline :: s) = newline :: shown false s :=
    shown_append (s := [newline]) (by decide) s
  simp only [Entry.colored, List.append_assoc, shown_kGray, shown_kReset, shown_colorFor, hopen,
    hclose, hclose', hblank, hend, shown_append h.1, shown_append h.2,
    shown_append (escape_notMem_levelToString e.level)]
  simp [Entry.line, bytes]

theorem shown_join {entries : List Entry} (h : ∀ e ∈ entries, e.Plain) :
    shown false (Lines.join newline (entries.map Entry.colored)) =
      Lines.join newline (entries.map Entry.line) := by
  induction entries with
  | nil => rfl
  | cons e entries ih =>
    rw [List.map_cons, Lines.join_cons, shown_colored (h e (by simp)), ih fun e' he' =>
      h e' (List.mem_cons_of_mem _ he'), List.map_cons, Lines.join_cons]

/-! ## Threads that log -/

variable {ι : Type*} [DecidableEq ι]

/-- The logger of a threshold, shared by the threads `ι`. -/
def logger (ι : Type*) [DecidableEq ι] (minLevel : Level) (s : Streams) :
    TransitionSystem (Monitor.State ι Entry Streams Unit) (Monitor.Label ι Entry Unit) :=
  Monitor.monitor ι s (log minLevel)

instance (minLevel : Level) (s₀ : Streams) (s : Monitor.State ι Entry Streams Unit)
    (l : Monitor.Label ι Entry Unit) : Decidable ((logger ι minLevel s₀).Enabled s l) :=
  inferInstanceAs (Decidable ((Monitor.monitor ι s₀ (log minLevel)).Enabled s l))

/-- The calls of a thread in a run. -/
def callsOf (i : ι) (run : List (Monitor.Label ι Entry Unit)) : List Entry :=
  (run.filterMap Monitor.Label.shown).filterMap (Event.callsOf i)

/-- The entries are those of the calls of a run that the threshold lets pass: those of a
thread in their order, all but the last if that one still waits for the mutex. -/
def Logged (minLevel : Level) (run : List (Monitor.Label ι Entry Unit))
    (s : Monitor.State ι Entry Streams Unit) (entries : List (ι × Entry)) : Prop :=
  ∀ i, ∃ waiting : List Entry,
    (callsOf i run).filter (·.Passes minLevel) =
      (entries.filter (·.1 = i)).map Prod.snd ++ waiting ∧
    ∀ e ∈ waiting, s.thread i = .called e ∧ waiting = [e]

theorem filter_performedFor (minLevel : Level) (performed : List (ι × Entry)) (i : ι) :
    (performed.filterMap fun p => if p.1 = i then some p.2 else none).filter
        (·.Passes minLevel) =
      ((performed.filter fun p => p.2.Passes minLevel).filter (·.1 = i)).map Prod.snd := by
  induction performed with
  | nil => rfl
  | cons p performed ih =>
    by_cases hi : p.1 = i <;> by_cases hp : p.2.Passes minLevel <;> simp [hi, hp, ih]

omit [DecidableEq ι] in
/-- A call that is not performed yet, while nobody holds the mutex, waits for it. -/
theorem called_of_pending {minLevel : Level} {s₀ : Streams} {s : Monitor.State ι Entry Streams Unit}
    {t : Linearizable.State ι Entry Unit} (h : Monitor.Simulates s₀ (log minLevel) s t)
    (howner : s.owner = none) {i : ι} {e : Entry} (he : e ∈ (t.thread i).pending) :
    s.thread i = .called e ∧ (t.thread i).pending = [e] := by
  have hfollows := h.thread i
  have hfree := h.not_owns howner i
  generalize t.thread i = w at he hfollows
  cases w with
  | idle | answered b => cases he
  | called k =>
    obtain rfl : e = k := List.mem_singleton.mp he
    refine ⟨?_, rfl⟩
    generalize s.thread i = v at hfollows hfree
    cases hfollows with
    | called => rfl
    | writing => exact absurd rfl hfree

/-- The lines in the streams of a logger that nobody holds. -/
theorem exists_logged {minLevel : Level} {s₀ : Streams}
    {run : List (Monitor.Label ι Entry Unit)}
    (h : (logger ι minLevel s₀).IsRun { value := s₀ } run)
    (howner : ((logger ι minLevel s₀).exec { value := s₀ } run).owner = none) :
    ∃ entries, Logged minLevel run ((logger ι minLevel s₀).exec { value := s₀ } run) entries ∧
      (∀ p ∈ entries, .call p.1 p.2 ∈ run) ∧
      ((logger ι minLevel s₀).exec { value := s₀ } run).value =
        { cout := s₀.cout ++ Lines.join newline (entries.map fun p => p.2.colored)
          file := s₀.file ++ Lines.join newline (entries.map fun p => p.2.line) } := by
  obtain ⟨run', hrun', hshown, hsim⟩ := Monitor.exists_run (hidden_log minLevel) h
  set t := ((Monitor.object s₀ (log minLevel)).atomic ι).exec {} run' with ht
  refine ⟨t.performed.filter fun p => p.2.Passes minLevel, fun i => ?_, fun p hp => ?_, ?_⟩
  · have hcalls := Object.calls_eq _ i hrun'
    rw [hshown, ← ht] at hcalls
    refine ⟨(t.thread i).pending.filter (·.Passes minLevel), ?_, fun e he => ?_⟩
    · rw [← filter_performedFor, ← List.filter_append]
      exact congrArg _ hcalls
    · obtain ⟨hmem, hpasses⟩ := List.mem_filter.mp he
      obtain ⟨hcalled, hpending⟩ := called_of_pending hsim howner hmem
      exact ⟨hcalled, by rw [hpending, List.filter_singleton, hpasses]; rfl⟩
  · have hcall := Object.call_of_performed hrun' (List.mem_filter.mp hp).1
    rw [hshown] at hcall
    exact Monitor.mem_of_shown hcall
  · exact (hsim.value howner).trans (value_log minLevel s₀ t.performed)

/-- While no thread is in the middle of a line, the file holds one whole line for each call
that the threshold let pass, those of a thread in the order of its calls; so does the
console, and unless a call has colour codes of its own a terminal shows there what is in
the file. -/
theorem log_is_whole_lines {minLevel : Level} {s₀ : Streams}
    {run : List (Monitor.Label ι Entry Unit)}
    (h : (logger ι minLevel s₀).IsRun { value := s₀ } run)
    (howner : ((logger ι minLevel s₀).exec { value := s₀ } run).owner = none) :
    ∃ entries, Logged minLevel run ((logger ι minLevel s₀).exec { value := s₀ } run) entries ∧
      ((logger ι minLevel s₀).exec { value := s₀ } run).value =
        { cout := s₀.cout ++ Lines.join newline (entries.map fun p => p.2.colored)
          file := s₀.file ++ Lines.join newline (entries.map fun p => p.2.line) } ∧
      ((∀ i e, .call i e ∈ run → e.Plain) →
        shown false (Lines.join newline (entries.map fun p => p.2.colored)) =
          Lines.join newline (entries.map fun p => p.2.line)) := by
  obtain ⟨entries, hlogged, hcalled, hvalue⟩ := exists_logged h howner
  refine ⟨entries, hlogged, hvalue, fun hplain => ?_⟩
  have hentries : ∀ e ∈ entries.map Prod.snd, e.Plain := by
    intro e he
    obtain ⟨p, hp, rfl⟩ := List.mem_map.mp he
    exact hplain p.1 p.2 (hcalled p hp)
  have hshown := shown_join hentries
  rwa [List.map_map, List.map_map] at hshown

/-- A log that a logger appends to holds the lines of its calls after what it held before,
and reads back as these calls, in the order of their lines, exactly when none of their
messages has a line break. -/
theorem log_reads_back_iff {minLevel : Level} {s₀ : Streams} {before : List Entry}
    {run : List (Monitor.Label ι Entry Unit)}
    (h : (logger ι minLevel s₀).IsRun { value := s₀ } run)
    (howner : ((logger ι minLevel s₀).exec { value := s₀ } run).owner = none)
    (hold : readLog s₀.file = some before) (hdated : ∀ i e, .call i e ∈ run → e.Dated) :
    ∃ entries, Logged minLevel run ((logger ι minLevel s₀).exec { value := s₀ } run) entries ∧
      ((logger ι minLevel s₀).exec { value := s₀ } run).value.file =
        s₀.file ++ Lines.join newline (entries.map fun p => p.2.line) ∧
      (readLog ((logger ι minLevel s₀).exec { value := s₀ } run).value.file =
          some (before ++ entries.map Prod.snd) ↔
        ∀ p ∈ entries, newline ∉ p.2.message) := by
  obtain ⟨entries, hlogged, hcalled, hvalue⟩ := exists_logged h howner
  refine ⟨entries, hlogged, by rw [hvalue], ?_⟩
  have hentries : ∀ e ∈ entries.map Prod.snd, e.Dated := by
    intro e he
    obtain ⟨p, hp, rfl⟩ := List.mem_map.mp he
    exact hdated p.1 p.2 (hcalled p hp)
  have hread := readLog_append_iff hold hentries
  rw [List.map_map, List.forall_mem_map] at hread
  rw [hvalue]
  exact hread

/-! ## A run of two threads -/

def firstEntry : Entry := ⟨bytes "2024-05-01 12:00:00", .info, bytes "Share accepted."⟩
def secondEntry : Entry := ⟨bytes "2024-05-01 12:00:00", .warn, bytes "Share rejected."⟩
def droppedEntry : Entry := ⟨bytes "2024-05-01 12:00:01", .debug, bytes "tick"⟩

/-- Thread 1 overtakes thread 0, and its second call is below the threshold. -/
def logRun : List (Monitor.Label (Fin 2) Entry Unit) :=
  [.call 0 firstEntry, .call 1 secondEntry, .lock 1] ++ List.replicate 20 (.access 1) ++
    [.unlock 1, .returned 1 (), .lock 0, .call 1 droppedEntry, .access 1] ++
    List.replicate 20 (.access 0) ++ [.unlock 0]

theorem isRun_logRun : (logger (Fin 2) .info {}).IsRun { value := {} } logRun ∧
    ((logger (Fin 2) .info {}).exec { value := {} } logRun).owner = none := by
  decide +kernel

theorem log_is_whole_lines_logRun :
    ∃ entries, Logged .info logRun
        ((logger (Fin 2) .info {}).exec { value := {} } logRun) entries ∧
      ((logger (Fin 2) .info {}).exec { value := {} } logRun).value.file =
        Lines.join newline (entries.map fun p => p.2.line) := by
  obtain ⟨entries, hlogged, hvalue, -⟩ := log_is_whole_lines isRun_logRun.1 isRun_logRun.2
  exact ⟨entries, hlogged, by rw [hvalue]; rfl⟩

/-- The run logs no line break, and its log reads back. -/
theorem log_reads_back_iff_logRun :
    ∃ entries, Logged .info logRun
        ((logger (Fin 2) .info {}).exec { value := {} } logRun) entries ∧
      ((logger (Fin 2) .info {}).exec { value := {} } logRun).value.file =
        Lines.join newline (entries.map fun p => p.2.line) ∧
      readLog ((logger (Fin 2) .info {}).exec { value := {} } logRun).value.file =
        some (entries.map Prod.snd) := by
  have hdated : (logRun.all fun | .call _ e => decide e.Dated | _ => true) = true := by
    decide +kernel
  have hbreaks : ∀ i, ∀ e ∈ callsOf i logRun, newline ∉ e.message := by decide +kernel
  have hold : readLog ({} : Streams).file = some [] := rfl
  obtain ⟨entries, hlogged, hfile, hreads⟩ :=
    log_reads_back_iff isRun_logRun.1 isRun_logRun.2 hold fun i e he =>
      of_decide_eq_true (List.all_eq_true.mp hdated _ he)
  refine ⟨entries, hlogged, hfile, hreads.mpr fun p hp => hbreaks p.1 p.2 ?_⟩
  -- an entry is one of the calls of its thread
  obtain ⟨waiting, hcalls, -⟩ := hlogged p.1
  have hmem : p.2 ∈ (entries.filter (·.1 = p.1)).map Prod.snd :=
    List.mem_map_of_mem (List.mem_filter.mpr ⟨hp, by simp⟩)
  have hpasses : p.2 ∈ (callsOf p.1 logRun).filter (·.Passes .info) := by
    rw [hcalls]
    exact List.mem_append_left _ hmem
  exact (List.mem_filter.mp hpasses).1

end CppMiner.Logger
