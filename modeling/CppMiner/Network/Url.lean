-- SUMMARY: The pool URL: which host and port `parseUrl` reads from it, and when they are the ones that were written.
import Mathlib.Data.List.Infix
import CppMiner.Lib.Bytes

/-!
# The pool URL

`parseUrl` drops a scheme, and cuts what follows at its first colon. A URL is written with
an optional scheme and an optional port. It is read back exactly if its host has no colon,
which an IPv6 address has, and, where it has no scheme, nothing in it looks like the end of
one (`parseUrl_poolUrl_iff`).
-/

namespace CppMiner.Network

structure ParsedUrl where
  host : Bytes := []
  port : Bytes := []
  deriving DecidableEq

def colon : UInt8 := ':'.toUInt8

def schemeEnd : Bytes := bytes "://"

def defaultPort : Bytes := bytes "3333"

/-- What follows the first occurrence of a text, if it occurs (`find` and `substr`). -/
def afterFirst (text : Bytes) : Bytes → Option Bytes
  | [] => if text = [] then some [] else none
  | c :: s => if text <+: c :: s then some ((c :: s).drop text.length) else afterFirst text s

/-- The host and the port, without a scheme. -/
def splitPort (rest : Bytes) : ParsedUrl :=
  if colon ∈ rest then
    { host := rest.takeWhile (· ≠ colon), port := (rest.dropWhile (· ≠ colon)).drop 1 }
  else { host := rest, port := defaultPort }

def parseUrl (url : Bytes) : ParsedUrl := splitPort ((afterFirst schemeEnd url).getD url)

/-! ## The first occurrence -/

variable {text s rest host p : Bytes}

theorem afterFirst_of_prefix (h : text <+: s) :
    afterFirst text s = some (s.drop text.length) := by
  cases s with
  | nil =>
    obtain rfl := List.prefix_nil.mp h
    rfl
  | cons c s => rw [afterFirst, if_pos h]

theorem afterFirst_eq_none : afterFirst text s = none ↔ ¬ text <:+: s := by
  induction s with
  | nil =>
    rw [afterFirst, List.infix_nil]
    split <;> simp_all
  | cons c s ih =>
    rw [afterFirst, List.infix_cons_iff, not_or]
    split
    · simp_all
    · simp_all

theorem eq_append_of_afterFirst (h : afterFirst text s = some rest) :
    ∃ pre, s = pre ++ text ++ rest := by
  induction s with
  | nil =>
    simp only [afterFirst, Option.ite_none_right_eq_some, Option.some.injEq] at h
    exact ⟨[], by simp [h.1, ← h.2]⟩
  | cons c s ih =>
    rw [afterFirst] at h
    split at h
    · rename_i hprefix
      obtain ⟨tail, htail⟩ := hprefix
      refine ⟨[], ?_⟩
      rw [← htail, List.drop_left, Option.some.injEq] at h
      rw [← htail, h, List.nil_append]
    · obtain ⟨pre, rfl⟩ := ih h
      exact ⟨c :: pre, rfl⟩

/-- A text is first found where its first byte first occurs. -/
theorem afterFirst_append {c : UInt8} (hs : c ∉ s) (text rest : Bytes) :
    afterFirst (c :: text) (s ++ (c :: text ++ rest)) = some rest := by
  induction s with
  | nil =>
    rw [List.nil_append, afterFirst_of_prefix (List.prefix_append _ _), List.drop_left]
  | cons a s ih =>
    rw [List.mem_cons, not_or] at hs
    have hnot : ¬ c :: text <+: a :: (s ++ (c :: text ++ rest)) := by
      intro hprefix
      exact hs.1 (List.cons_prefix_cons.mp hprefix).1
    rw [List.cons_append, afterFirst, if_neg hnot, ih hs.2]

/-! ## The port -/

/-- The port as it is written after the host. -/
def portText (port : Option Bytes) : Bytes := port.elim [] (colon :: ·)

theorem splitPort_append (h : colon ∉ host) (p : Bytes) :
    splitPort (host ++ colon :: p) = { host := host, port := p } := by
  have hhost : ∀ c ∈ host, decide (c ≠ colon) = true := by
    intro c hc
    rw [decide_eq_true_eq]
    rintro rfl
    exact h hc
  have hscan : (host ++ colon :: p).takeWhile (· ≠ colon) = host ∧
      (host ++ colon :: p).dropWhile (· ≠ colon) = colon :: p := scan_append hhost (by simp)
  rw [splitPort, if_pos (by simp), hscan.1, hscan.2]
  rfl

theorem splitPort_of_notMem (h : colon ∉ host) :
    splitPort host = { host := host, port := defaultPort } := if_neg h

theorem colon_notMem_host (rest : Bytes) : colon ∉ (splitPort rest).host := by
  by_cases h : colon ∈ rest
  · obtain ⟨host, p, rfl, hhost⟩ := List.eq_append_cons_of_mem h
    rwa [splitPort_append hhost]
  · rwa [splitPort_of_notMem h]

/-- What was cut at its first colon, or had none. -/
theorem splitPort_cases (rest : Bytes) :
    rest = (splitPort rest).host ++ colon :: (splitPort rest).port ∨
      rest = (splitPort rest).host ∧ (splitPort rest).port = defaultPort := by
  by_cases h : colon ∈ rest
  · obtain ⟨host, p, rfl, hhost⟩ := List.eq_append_cons_of_mem h
    rw [splitPort_append hhost]
    exact .inl rfl
  · rw [splitPort_of_notMem h]
    exact .inr ⟨rfl, rfl⟩

/-- A host and a port that are written one after the other are found again where the host
has no colon. -/
theorem splitPort_portText_iff (host : Bytes) (port : Option Bytes) :
    splitPort (host ++ portText port) =
      { host := host, port := port.getD defaultPort } ↔ colon ∉ host := by
  constructor
  · intro h
    have hmem := colon_notMem_host (host ++ portText port)
    rwa [h] at hmem
  · intro h
    cases port with
    | none =>
      rw [portText, Option.elim_none, List.append_nil]
      exact splitPort_of_notMem h
    | some p => exact splitPort_append h p

/-! ## URLs -/

/-- A URL as it is written. -/
def poolUrl (scheme : Option Bytes) (host : Bytes) (port : Option Bytes) : Bytes :=
  scheme.elim [] (· ++ schemeEnd) ++ (host ++ portText port)

/-- What is left of a URL after something that looks like a scheme is not read as its host
and port. -/
theorem splitPort_ne_of_append {pre : Bytes} {port : Option Bytes}
    (h : host ++ portText port = pre ++ schemeEnd ++ rest) :
    splitPort rest ≠ { host := host, port := port.getD defaultPort } := by
  intro hsplit
  have hlength := congrArg List.length h
  have hend : schemeEnd.length = 3 := rfl
  simp only [List.length_append, hend] at hlength
  have hcases := splitPort_cases rest
  have hcolon := colon_notMem_host rest
  rw [hsplit] at hcases hcolon
  rcases hcases with hrest | ⟨hrest, hport⟩
  · have hlength' := congrArg List.length hrest
    cases port with
    | none =>
      simp [portText] at hlength hlength'
      omega
    | some p =>
      simp [portText] at hlength hlength'
      omega
  · obtain rfl : rest = host := hrest
    cases port with
    | none =>
      rw [portText, Option.elim_none, List.length_nil] at hlength
      omega
    | some p =>
      obtain rfl : p = defaultPort := hport
      -- The host ends the default port, so that there is no slash in either.
      have hslash : '/'.toUInt8 ∈ rest ++ portText (some defaultPort) := by
        rw [h]
        exact List.mem_append_left _ (List.mem_append_right _ (by decide))
      have hsuffix : rest <:+ portText (some defaultPort) := by
        have hend : rest <:+ rest ++ portText (some defaultPort) := by
          rw [h]
          exact List.suffix_append _ _
        refine (List.suffix_or_suffix_of_suffix hend (List.suffix_append _ _)).resolve_right ?_
        intro hcontains
        exact hcolon (hcontains.mem (List.mem_cons_self ..))
      rcases List.mem_append.mp hslash with hmem | hmem
      · exact absurd (hsuffix.mem hmem) (by decide)
      · exact absurd hmem (by decide)

/-- A URL whose scheme, if it has one, has no colon is read as it was written exactly if
its host has none, and if without a scheme nothing in it looks like one. -/
theorem parseUrl_poolUrl_iff {scheme : Option Bytes} (hscheme : ∀ s ∈ scheme, colon ∉ s)
    (host : Bytes) (port : Option Bytes) :
    parseUrl (poolUrl scheme host port) = { host := host, port := port.getD defaultPort } ↔
      colon ∉ host ∧ (scheme = none → ¬ schemeEnd <:+: host ++ portText port) := by
  cases scheme with
  | some s =>
    have hrest : afterFirst schemeEnd (poolUrl (some s) host port) =
        some (host ++ portText port) := by
      rw [poolUrl, Option.elim_some, List.append_assoc]
      exact afterFirst_append (hscheme s rfl) _ _
    rw [parseUrl, hrest, Option.getD_some, splitPort_portText_iff]
    simp
  | none =>
    rw [parseUrl, poolUrl, Option.elim_none, List.nil_append]
    cases hfirst : afterFirst schemeEnd (host ++ portText port) with
    | none =>
      rw [Option.getD_none, splitPort_portText_iff]
      simp [afterFirst_eq_none.mp hfirst]
    | some rest =>
      obtain ⟨pre, hpre⟩ := eq_append_of_afterFirst hfirst
      have hne := splitPort_ne_of_append hpre
      have hinfix : schemeEnd <:+: host ++ portText port := ⟨pre, rest, hpre.symm⟩
      simp [hne, hinfix]

theorem parseUrl_poolUrl_iff_stratum :
    parseUrl (poolUrl (some (bytes "stratum+tcp")) (bytes "pool") (some (bytes "3032"))) =
      { host := bytes "pool", port := bytes "3032" } := by
  have hscheme : ∀ s ∈ some (bytes "stratum+tcp"), colon ∉ s := by decide
  have hread := parseUrl_poolUrl_iff hscheme (bytes "pool") (some (bytes "3032"))
  exact hread.mpr ⟨by decide, nofun⟩

/-- The address of a host on the same machine is cut in its middle. -/
example : parseUrl (bytes "[::1]:3032") = { host := bytes "[", port := bytes ":1]:3032" } := by
  decide

end CppMiner.Network
