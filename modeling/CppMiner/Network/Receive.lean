-- SUMMARY: The receive and split loop of `runLoop`, and that the lines it hands on are those of the stream.
import CppMiner.Lib.Bytes
import CppMiner.Lib.Lines

/-!
# Receiving lines

`runLoop` appends every received chunk to a buffer and hands the lines in it to
`handleLine`, one by one, as soon as they are complete. The functions here are
generic in the state that handling a line changes, so that they say which lines
are handled, in which order, and nothing about what handling does.

However the stream is cut into chunks, the lines handled are its
newline-terminated segments (`receiveConnections_eq`).
-/

namespace CppMiner.Network

variable {σ : Type*}

/-- `lineBuffer.find('\n')`, the `substr` before it and the `erase` up to it. -/
def nextLine (lineBuffer : Bytes) : Option (Bytes × Bytes) :=
  match lineBuffer.findIdx? (· = newline) with
  | none => none
  | some newlinePos => some (lineBuffer.take newlinePos, lineBuffer.drop (newlinePos + 1))

/-- A line is taken out of the buffer together with its newline. -/
theorem nextLine_eq_some {buf line rest : Bytes} :
    nextLine buf = some (line, rest) ↔
      buf = line ++ newline :: rest ∧ newline ∉ line := by
  constructor
  · intro h
    unfold nextLine at h
    split at h
    · cases h
    · rename_i newlinePos hpos
      cases h
      rw [List.findIdx?_eq_some_iff_getElem] at hpos
      obtain ⟨hlt, hnl, hbefore⟩ := hpos
      refine ⟨?_, ?_⟩
      · rw [← of_decide_eq_true hnl, ← List.drop_eq_getElem_cons, List.take_append_drop]
      · intro hmem
        obtain ⟨i, hi, heq⟩ := List.mem_take_iff_getElem.mp hmem
        exact hbefore i (by omega) (decide_eq_true heq)
  · rintro ⟨rfl, hline⟩
    have hidx : (line ++ newline :: rest).findIdx? (· = newline) = some line.length := by
      rw [List.findIdx?_append]
      have : line.findIdx? (· = newline) = none := by
        rw [List.findIdx?_eq_none_iff]
        intro c hc
        exact decide_eq_false fun heq => hline (heq ▸ hc)
      simp [this, List.findIdx?_cons]
    unfold nextLine
    rw [hidx]
    simp

theorem nextLine_eq_none {buf : Bytes} : nextLine buf = none ↔ newline ∉ buf := by
  unfold nextLine
  split
  · rename_i h
    rw [List.findIdx?_eq_none_iff] at h
    simp only [true_iff]
    intro hmem
    simpa using h _ hmem
  · rename_i pos h
    rw [List.findIdx?_eq_some_iff_getElem] at h
    obtain ⟨hlt, hnl, -⟩ := h
    simp only [reduceCtorEq, false_iff, not_not]
    exact of_decide_eq_true hnl ▸ List.getElem_mem hlt

/-- Taking a line out makes the buffer shorter. -/
theorem length_nextLine {buf line rest : Bytes} (h : nextLine buf = some (line, rest)) :
    rest.length < buf.length := by
  rw [(nextLine_eq_some.mp h).1]
  simp
  omega

/-! ## The loops -/

/-- The inner loop of `runLoop`: handle the complete lines of the buffer. -/
def drainLines (handleLine : σ → Bytes → σ) (lineBuffer : Bytes) (s : σ) : Bytes × σ :=
  match _h : nextLine lineBuffer with
  | none => (lineBuffer, s)
  | some (line, rest) => drainLines handleLine rest (handleLine s line)
termination_by lineBuffer.length
decreasing_by exact length_nextLine _h

/-- What one successful `recv` leads to. -/
def receiveChunk (handleLine : σ → Bytes → σ) (st : Bytes × σ) (chunk : Bytes) : Bytes × σ :=
  drainLines handleLine (st.1 ++ chunk) st.2

/-- The chunks received on one connection; its buffer starts empty. -/
def receiveConnection (handleLine : σ → Bytes → σ) (chunks : List Bytes) (s : σ) : Bytes × σ :=
  chunks.foldl (receiveChunk handleLine) ([], s)

/-- The connections of a run, one after the other: what each leaves in its buffer,
and the state after the last. -/
def receiveConnections (handleLine : σ → Bytes → σ) : List (List Bytes) → σ → List Bytes × σ
  | [], s => ([], s)
  | chunks :: conns, s =>
    let (rest, s) := receiveConnection handleLine chunks s
    let (rests, s) := receiveConnections handleLine conns s
    (rest :: rests, s)

/-! ## The lines handled -/

/-- Draining the buffer handles its segments in order and keeps its remainder. -/
theorem drainLines_eq (handleLine : σ → Bytes → σ) (buf : Bytes) (s : σ) :
    drainLines handleLine buf s =
      (Lines.remainder newline buf, (Lines.segments newline buf).foldl handleLine s) := by
  fun_induction drainLines handleLine buf s with
  | case1 buf s h =>
    have := Lines.split_of_notMem (nextLine_eq_none.mp h)
    simp [Lines.remainder, Lines.segments, this]
  | case2 buf s line rest h ih =>
    obtain ⟨rfl, hline⟩ := nextLine_eq_some.mp h
    rw [ih]
    simp [Lines.remainder, Lines.segments, Lines.split_line hline]

/-- The buffer between two chunks is the remainder of the stream so far. -/
theorem foldl_receiveChunk_eq (handleLine : σ → Bytes → σ) (chunks : List Bytes) (buf : Bytes)
    (hbuf : newline ∉ buf) (s : σ) :
    chunks.foldl (receiveChunk handleLine) (buf, s) =
      (Lines.remainder newline (buf ++ chunks.flatten),
        (Lines.segments newline (buf ++ chunks.flatten)).foldl handleLine s) := by
  induction chunks generalizing buf s with
  | nil =>
    have := Lines.split_of_notMem hbuf
    simp [Lines.remainder, Lines.segments, this]
  | cons chunk chunks ih =>
    have hrest := (Lines.notMem_split newline (buf ++ chunk)).2
    have happend := Lines.split_append newline (buf ++ chunk) chunks.flatten
    simp only [Lines.remainder, Lines.segments] at ih happend ⊢
    rw [List.foldl_cons, receiveChunk, drainLines_eq, Lines.remainder, Lines.segments,
      ih _ hrest, List.flatten_cons, ← List.append_assoc, happend, List.foldl_append]

theorem receiveConnection_eq (handleLine : σ → Bytes → σ) (chunks : List Bytes) (s : σ) :
    receiveConnection handleLine chunks s =
      (Lines.remainder newline chunks.flatten,
        (Lines.segments newline chunks.flatten).foldl handleLine s) := by
  simpa [receiveConnection] using foldl_receiveChunk_eq handleLine chunks [] List.not_mem_nil s

/-- Line framing does not depend on how the streams are cut: over any connections and
any chunks, the lines handled are the newline-terminated segments of each connection's
stream, in order and each once, every buffer keeps what follows the last newline of its
own stream, and nothing passes from one connection to the next. -/
theorem receiveConnections_eq (handleLine : σ → Bytes → σ) (conns : List (List Bytes)) (s : σ) :
    receiveConnections handleLine conns s =
      (conns.map fun chunks => Lines.remainder newline chunks.flatten,
        (conns.flatMap fun chunks => Lines.segments newline chunks.flatten).foldl
          handleLine s) := by
  induction conns generalizing s with
  | nil => rfl
  | cons chunks conns ih =>
    simp only [receiveConnections, receiveConnection_eq, ih, List.map_cons, List.flatMap_cons,
      List.foldl_append]

end CppMiner.Network
