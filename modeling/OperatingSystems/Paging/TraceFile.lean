-- SUMMARY: replay_trace: which accesses a trace text makes, and when they are those its lines describe.
import OperatingSystems.Library.Scanning
import OperatingSystems.Paging.Simulator

/-!
# The trace file

`replay_trace` skips the lines that begin with '='. Of each other line it makes one access, whether
or not `sscanf` found a type and an address there: what it did not find is left from the line before.
-/

namespace Paging

open Library Library.Run

/-! ## The code -/

def MAXLINE : Nat := 256

/-- What `sscanf` assigns to `type` and `vaddr`, one conversion after the other. -/
def Access.assign (a : Access) : Conversion → Access
  | .char c => { a with type := c }
  | .long n => { a with vaddr := n }

/-- `sscanf(buf, "%c %lx", &type, &vaddr)`, its result ignored. -/
def scanAccess (buf : List Char) (a : Access) : Access :=
  (sscanf buf [.char, .blank, .long]).foldl Access.assign a

variable {σ : Type}

/-- The body of the loop of `replay_trace`, with the two variables that outlive it. -/
def replayLine (accessMem : Access → σ → Except Fault σ) (buf : List Char) (vars : Access × σ) :
    Except Fault (Access × σ) :=
  if buf.head? ≠ some '=' then do
    let a := scanAccess buf vars.1
    let s ← accessMem a vars.2
    .ok (a, s)
  else .ok vars

/-- `replay_trace`, which calls `access_mem`. Only `vaddr` is initialized: `type` is what was there. -/
def replayTrace (accessMem : Access → σ → Except Fault σ) (type : Char) (text : List Char) (s : σ) :
    Except Fault σ := do
  let vars ← exec (replayLine accessMem) (buffers MAXLINE text) ({ type := type, vaddr := 0 }, s)
  .ok vars.2

/-! ## The calls -/

/-- The accesses of a sequence of buffers. -/
def callsFrom : Access → List (List Char) → List Access
  | _, [] => []
  | a, buf :: bufs =>
    if buf.head? ≠ some '=' then scanAccess buf a :: callsFrom (scanAccess buf a) bufs
    else callsFrom a bufs

/-- The accesses that `replay_trace` makes of a text. -/
def calls (type : Char) (text : List Char) : List Access :=
  callsFrom { type := type, vaddr := 0 } (buffers MAXLINE text)

variable {accessMem : Access → σ → Except Fault σ} {type : Char} {text body rest line : List Char}
  {s : σ} {a : Access} {as : List Access} {ls bufs : List (List Char)}

theorem exec_replayLine (a : Access) (bufs : List (List Char)) (s : σ) :
    (do let vars ← exec (replayLine accessMem) bufs (a, s); .ok vars.2) =
      exec accessMem (callsFrom a bufs) s := by
  induction bufs generalizing a s with
  | nil => rfl
  | cons buf bufs ih =>
    rw [callsFrom]
    by_cases hskip : buf.head? = some '='
    · rw [if_neg (not_not.mpr hskip), ← ih]
      simp only [exec, replayLine, if_neg (not_not.mpr hskip), ok_bind]
    · rw [if_pos hskip]
      simp only [exec, replayLine, if_pos hskip]
      cases accessMem (scanAccess buf a) s with
      | error e => rfl
      | ok t => exact ih (scanAccess buf a) t

/-- What `replay_trace` does is a run over the accesses it makes. -/
theorem replayTrace_eq : replayTrace accessMem type text s = exec accessMem (calls type text) s :=
  exec_replayLine _ _ _

/-- It makes an access of each buffer that does not begin with '='. -/
theorem length_callsFrom :
    (callsFrom a bufs).length = bufs.countP fun buf => buf.head? ≠ some '=' := by
  induction bufs generalizing a with
  | nil => rfl
  | cons buf bufs ih =>
    rw [callsFrom, List.countP_cons]
    by_cases hskip : buf.head? = some '='
    · simp [hskip, ih]
    · simp [hskip, ih]

/-- Accesses recorded in the order in which they are made. -/
theorem exec_record (as log : List Access) :
    exec (fun a log => (.ok (log ++ [a]) : Except Fault (List Access))) as log = .ok (log ++ as) := by
  induction as generalizing log with
  | nil => rw [exec_nil, List.append_nil]
  | cons a as ih => rw [exec, ok_bind, ih, List.append_assoc, List.singleton_append]

/-! ## The trace -/

/-- A line of the form 'character, blanks, hexadecimal address', not beginning with '='. A NUL is no
character, and after the address there are at most blanks. -/
structure IsEntry (line : List Char) (a : Access) : Prop where
  type_ne : a.type ≠ '=' ∧ a.type ≠ '\x00'
  form : ∃ blanks number trailing, content line = a.type :: (blanks ++ (number ++ trailing)) ∧
    blanks ≠ [] ∧ (∀ c ∈ blanks, isspace c) ∧ WritesHex number a.vaddr.toNat ∧
    ∀ c ∈ trailing, isspace c

/-- The accesses that lines describe, in order; the other lines describe none. -/
inductive Describes : List (List Char) → List Access → Prop
  | nil : Describes [] []
  | entry {line : List Char} {a : Access} {ls : List (List Char)} {as : List Access} :
      IsEntry line a → Describes ls as → Describes (line :: ls) (a :: as)
  | skip {line : List Char} {ls : List (List Char)} {as : List Access} :
      (∀ a, ¬IsEntry line a) → Describes ls as → Describes (line :: ls) as

/-- `replay_trace` performs exactly the trace in a text, whatever `access_mem` does. -/
def Performs (text : List Char) : Prop :=
  ∃ as, Describes (lines text) as ∧ ∀ (σ : Type) (accessMem : Access → σ → Except Fault σ)
    (type : Char) (s : σ), replayTrace accessMem type text s = exec accessMem as s

namespace IsEntry

theorem head? (h : IsEntry line a) : line.head? = some a.type := by
  obtain ⟨blanks, number, trailing, hform, -⟩ := h.form
  have hhead := congrArg List.head? hform
  rw [content, List.head?_takeWhile, List.head?_cons, Option.filter_eq_some_iff] at hhead
  exact hhead.1

theorem head?_ne (h : IsEntry line a) : line.head? ≠ some '=' := by
  rw [h.head?]
  exact fun heq => h.type_ne.1 (Option.some.inj heq)

/-- Of such a line `sscanf` converts both, and nothing is left from the lines before. -/
theorem scanAccess (h : IsEntry line a) (b : Access) : scanAccess line b = a := by
  obtain ⟨blanks, number, trailing, hform, -, hblanks, hnumber, htrailing⟩ := h.form
  let after := line.dropWhile (· ≠ '\n')
  have hline : line = a.type :: (blanks ++ (number ++ (trailing ++ after))) := by
    have hsplit : content line ++ after = line := List.takeWhile_append_dropWhile
    rw [← hsplit, hform]
    simp
  have hhead : ∀ c, (trailing ++ after).head? = some c → isspace c := by
    intro c hc
    cases trailing with
    | cons d trailing =>
      cases hc
      exact htrailing _ List.mem_cons_self
    | nil =>
      have hstop := List.head?_dropWhile_not (· ≠ '\n') line
      have hafter : (line.dropWhile (· ≠ '\n')).head? = some c := hc
      rw [hafter] at hstop
      obtain rfl : c = '\n' := by simpa using hstop
      rfl
  rw [Paging.scanAccess, hline,
    sscanf_char_long h.type_ne.2 hblanks hnumber a.vaddr.isLt hhead]
  simp [Access.assign]

theorem unique {b : Access} (h : IsEntry line a) (h' : IsEntry line b) : a = b :=
  (h.scanAccess a).symm.trans (h'.scanAccess a)

end IsEntry

/-- The lines of a text say which accesses are its trace. -/
theorem Describes.unique {bs : List Access} (h : Describes ls as) (h' : Describes ls bs) :
    as = bs := by
  induction h generalizing bs with
  | nil =>
    cases h'
    rfl
  | entry ha _ ih =>
    cases h' with
    | entry hb hbs => rw [ha.unique hb, ih hbs]
    | skip hno _ => exact absurd ha (hno _)
  | skip hno _ ih =>
    cases h' with
    | entry hb _ => exact absurd hb (hno _)
    | skip _ hbs => exact ih hbs

/-! ## When the trace is performed -/

/-- A line that is skipped, or describes an access. -/
def WellFormed (line : List Char) : Prop := line.head? = some '=' ∨ ∃ a, IsEntry line a

/-- The accesses of well-formed lines do not depend on what is left from the lines before. -/
theorem exists_describes (h : ∀ l ∈ ls, WellFormed l) :
    ∃ as, Describes ls as ∧ ∀ a, callsFrom a ls = as := by
  induction ls with
  | nil => exact ⟨[], .nil, fun _ => rfl⟩
  | cons line ls ih =>
    obtain ⟨hline, hls⟩ := List.forall_mem_cons.mp h
    obtain ⟨as, hdescribes, hcalls⟩ := ih hls
    rcases hline with hskip | ⟨a, ha⟩
    · refine ⟨as, .skip (fun a ha => ha.head?_ne hskip) hdescribes, fun b => ?_⟩
      rw [callsFrom, if_neg (not_not.mpr hskip), hcalls]
    · refine ⟨a :: as, .entry ha hdescribes, fun b => ?_⟩
      rw [callsFrom, if_pos ha.head?_ne, ha.scanAccess, hcalls]

/-- How many accesses are made of a sequence of buffers. -/
def accesses (bufs : List (List Char)) : Nat := bufs.countP fun buf => buf.head? ≠ some '='

theorem accesses_append (bs bufs : List (List Char)) :
    accesses (bs ++ bufs) = accesses bs + accesses bufs := List.countP_append

theorem accesses_singleton (buf : List Char) :
    accesses [buf] = if buf.head? = some '=' then 0 else 1 := by
  by_cases hskip : buf.head? = some '=' <;> simp [accesses, hskip]

/-- The accesses made of one line, whose newline may have to wait for the next call of `fgets`. -/
theorem buffers_line (hbody : '\n' ∉ body) (hlen : body.length < MAXLINE) :
    ∃ bs, buffers MAXLINE (body ++ '\n' :: rest) = bs ++ buffers MAXLINE rest ∧
      accesses [body ++ ['\n']] ≤ accesses bs ∧
      (accesses bs ≤ accesses [body ++ ['\n']] → (body ++ ['\n']).length < MAXLINE) := by
  by_cases hfits : body.length + 1 < MAXLINE
  · refine ⟨[body ++ ['\n']], buffers_append hbody hfits, le_rfl, fun _ => ?_⟩
    rw [List.length_append, List.length_singleton]
    exact hfits
  · have hfull : body.length + 1 = MAXLINE := by omega
    have hne : body ≠ [] := by
      rintro rfl
      cases hfull
    refine ⟨[body, ['\n']], buffers_full hbody hfull (by decide), ?_, ?_⟩
    · have happ := accesses_append [body] [['\n']]
      rw [List.singleton_append] at happ
      rw [happ, accesses_singleton, accesses_singleton, List.head?_append_of_ne_nil body hne]
      exact Nat.le_add_right _ _
    · intro hle
      have happ := accesses_append [body] [['\n']]
      rw [List.singleton_append] at happ
      rw [happ, accesses_singleton body, accesses_singleton (body ++ ['\n']),
        List.head?_append_of_ne_nil body hne] at hle
      exact absurd hle (Nat.not_le_of_lt (Nat.lt_add_one _))

/-- No line is described by more accesses than are made of it, and if they are not fewer either, then
the line is well formed. -/
theorem Describes.first (h : Describes (line :: ls) as) : ∃ n as', Describes ls as' ∧
    as.length = n + as'.length ∧ n ≤ accesses [line] ∧ (accesses [line] ≤ n → WellFormed line) := by
  rw [accesses_singleton]
  cases h with
  | entry ha has =>
    refine ⟨1, _, has, Nat.add_comm _ _, ?_, fun _ => .inr ⟨_, ha⟩⟩
    rw [if_neg ha.head?_ne]
  | skip _ has =>
    refine ⟨0, as, has, (Nat.zero_add _).symm, Nat.zero_le _, fun hle => .inl ?_⟩
    by_contra hskip
    rw [if_neg hskip] at hle
    cases hle

/-- At least as many accesses are made of a text as its lines describe, and no more only if each line
is well formed and is read by one call of `fgets`. -/
theorem Describes.accesses (hlen : ∀ l ∈ lines text, (content l).length < MAXLINE)
    (h : Describes (lines text) as) : as.length ≤ accesses (buffers MAXLINE text) ∧
      (accesses (buffers MAXLINE text) ≤ as.length →
        ∀ l ∈ lines text, l.length < MAXLINE ∧ WellFormed l) := by
  induction text using line_induction generalizing as with
  | hnil =>
    cases h
    exact ⟨le_rfl, fun _ l hl => absurd hl List.not_mem_nil⟩
  | hlast body hbody hne =>
    rw [lines_last hbody hne] at h hlen ⊢
    have hfits := hlen body List.mem_cons_self
    rw [content_last hbody] at hfits
    obtain ⟨n, as', hnil, hcount, hle, hwell⟩ := h.first
    cases hnil
    rw [List.length_nil, Nat.add_zero] at hcount
    rw [buffers_last hbody hne hfits, hcount]
    refine ⟨hle, fun hge l hl => ?_⟩
    rw [List.mem_singleton.mp hl]
    exact ⟨hfits, hwell hge⟩
  | hline body rest hbody ih =>
    rw [lines_append hbody] at h hlen ⊢
    obtain ⟨hfirst, hrest⟩ := List.forall_mem_cons.mp hlen
    rw [content_line hbody] at hfirst
    obtain ⟨n, as', has', hcount, hle, hwell⟩ := h.first
    obtain ⟨bs, hbs, hmade, hone⟩ := @buffers_line body rest hbody hfirst
    obtain ⟨hle', hgood⟩ := ih hrest has'
    rw [hbs, accesses_append, hcount]
    refine ⟨by omega, fun hge => List.forall_mem_cons.mpr ⟨⟨hone (by omega), hwell (by omega)⟩, ?_⟩⟩
    exact hgood (by omega)

/-- If the trace in a text is performed, no access is made of any other line. -/
theorem Performs.wellFormed (h : Performs text)
    (hlen : ∀ l ∈ lines text, (content l).length < MAXLINE) :
    ∀ l ∈ lines text, l.length < MAXLINE ∧ WellFormed l := by
  obtain ⟨as, hdescribes, hperforms⟩ := h
  -- An `access_mem` that only records its calls.
  have hrecord := hperforms (List Access) (fun a log => .ok (log ++ [a])) 'I' []
  rw [replayTrace_eq, exec_record, exec_record, List.nil_append, List.nil_append,
    Except.ok.injEq] at hrecord
  refine (hdescribes.accesses hlen).2 (le_of_eq ?_)
  rw [← hrecord, calls, length_callsFrom]
  rfl

/-- `replay_trace` performs exactly the trace in a text, of lines shorter than `MAXLINE`, if and only
if each line that it does not skip is well formed, and each line has room for its newline too. -/
theorem performs_iff {text : List Char} (hlen : ∀ l ∈ lines text, (content l).length < MAXLINE) :
    Performs text ↔ ∀ l ∈ lines text, l.length < MAXLINE ∧
      (l.head? = some '=' ∨ ∃ a, IsEntry l a) := by
  constructor
  · exact fun h => h.wellFormed hlen
  · intro h
    obtain ⟨as, hdescribes, hcalls⟩ := exists_describes fun l hl => (h l hl).2
    refine ⟨as, hdescribes, fun σ accessMem type s => ?_⟩
    rw [replayTrace_eq, calls, buffers_eq_lines fun l hl => (h l hl).1, hcalls]

/-- A line that is skipped, and an entry. -/
theorem performs_iff_entry : Performs ['=', '=', '\n', 'S', ' ', '1', '0', '\n'] := by
  refine (performs_iff (by decide)).mpr fun l hl => ?_
  have hl' : l = ['=', '=', '\n'] ∨ l = ['S', ' ', '1', '0', '\n'] := by simpa [lines] using hl
  rcases hl' with rfl | rfl
  · exact ⟨by decide, .inl rfl⟩
  · refine ⟨by decide, .inr ⟨⟨'S', 0x10⟩, by decide, [' '], ['1', '0'], [], rfl, ?_⟩⟩
    exact ⟨by decide, by simp [isspace],
      ⟨['1', '0'], by decide, by simp [isxdigit, hexDigit], rfl, .inl rfl⟩, by simp⟩

/-- The blank line behind the entry makes a second access, to the same address. -/
theorem not_performs_blank : ¬Performs ['S', ' ', '1', '0', '\n', '\n'] := by
  intro h
  rcases (h.wellFormed (by decide) ['\n'] (by decide)).2 with hskip | ⟨a, ha⟩
  · cases hskip
  · obtain ⟨blanks, number, trailing, hform, -⟩ := ha.form
    cases hform

example : calls 'I' ['S', ' ', '1', '0', '\n', '\n'] = [⟨'S', 0x10⟩, ⟨'\n', 0x10⟩] := by decide

end Paging
