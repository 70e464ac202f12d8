-- SUMMARY: Reading text as the C library does: lines into a buffer of fixed size, and the conversions of a format.
import Mathlib.Algebra.Group.Nat.Defs
import Mathlib.Data.List.DropRight
import Mathlib.Data.List.TakeWhile

/-!
# Scanning

`fgets` reads up to the end of a line or of its buffer. On a text whose lines fit into the buffer,
calling it until it returns NULL gives the lines. `sscanf` follows a format until a conversion
fails; the values before that one are assigned and the others are not.
-/

namespace Library

variable {size n : Nat} {text body rest buf cs : List Char} {c : Char}

/-! ## Lines -/

/-- The lines of a text, each with the newline that ends it. -/
def lines : List Char → List (List Char)
  | [] => []
  | c :: text =>
    if c = '\n' then [c] :: lines text
    else
      match lines text with
      | [] => [[c]]
      | l :: ls => (c :: l) :: ls

/-- A line without the newline that ends it. -/
def content (line : List Char) : List Char := line.takeWhile (· ≠ '\n')

theorem lines_last (h : '\n' ∉ body) (hne : body ≠ []) : lines body = [body] := by
  induction body with
  | nil => exact absurd rfl hne
  | cons c body ih =>
    obtain ⟨hc, hbody⟩ := List.ne_and_not_mem_of_not_mem_cons h
    rw [lines, if_neg (Ne.symm hc)]
    by_cases hnil : body = []
    · subst hnil
      rfl
    · rw [ih hbody hnil]

theorem lines_append (h : '\n' ∉ body) :
    lines (body ++ '\n' :: rest) = (body ++ ['\n']) :: lines rest := by
  induction body with
  | nil => simp [lines]
  | cons c body ih =>
    obtain ⟨hc, hbody⟩ := List.ne_and_not_mem_of_not_mem_cons h
    rw [List.cons_append, lines, if_neg (Ne.symm hc), ih hbody]
    rfl

/-- A text is read line by line. -/
theorem line_induction {P : List Char → Prop} (hnil : P [])
    (hlast : ∀ body, '\n' ∉ body → body ≠ [] → P body)
    (hline : ∀ body rest, '\n' ∉ body → P rest → P (body ++ '\n' :: rest)) (text : List Char) :
    P text := by
  have hlen : ∀ n, ∀ text : List Char, text.length ≤ n → P text := by
    intro n
    induction n with
    | zero =>
      intro text hn
      rw [List.length_eq_zero_iff.mp (Nat.le_zero.mp hn)]
      exact hnil
    | succ n ih =>
      intro text hn
      by_cases hmem : '\n' ∈ text
      · obtain ⟨body, rest, rfl, hbody⟩ := List.eq_append_cons_of_mem hmem
        refine hline body rest hbody (ih rest ?_)
        rw [List.length_append, List.length_cons] at hn
        omega
      · by_cases hne : text = []
        · rw [hne]
          exact hnil
        · exact hlast text hmem hne
  exact hlen text.length text (Nat.le_refl _)

@[simp] theorem content_last (h : '\n' ∉ body) : content body = body := by
  refine List.takeWhile_eq_self_iff.mpr fun c hc => ?_
  have hne : c ≠ '\n' := fun heq => h (heq ▸ hc)
  simpa using hne

@[simp] theorem content_line (h : '\n' ∉ body) : content (body ++ ['\n']) = body := by
  rw [content, List.takeWhile_append_of_pos]
  · simp
  · intro c hc
    have hne : c ≠ '\n' := fun heq => h (heq ▸ hc)
    simpa using hne

/-! ## `fgets` -/

/-- At most `n` characters, and none after a newline, with the text that is left. -/
def takeLine : Nat → List Char → List Char × List Char
  | 0, text => ([], text)
  | _ + 1, [] => ([], [])
  | n + 1, c :: text =>
    if c = '\n' then ([c], text)
    else
      let (buf, rest) := takeLine n text
      (c :: buf, rest)

/-- `fgets`, with the text that is left. The buffer has to hold a NUL as well. -/
def fgets (size : Nat) (text : List Char) : Option (List Char × List Char) :=
  if text = [] then none else some (takeLine (size - 1) text)

/-- What the buffer holds after each call of `fgets`, until it returns NULL. Every call takes
something, so the text is used up after as many calls as it has characters. -/
def buffersIn (size : Nat) : Nat → List Char → List (List Char)
  | 0, _ => []
  | calls + 1, text =>
    match fgets size text with
    | none => []
    | some (buf, rest) => buf :: buffersIn size calls rest

def buffers (size : Nat) (text : List Char) : List (List Char) := buffersIn size text.length text

theorem takeLine_append (h : '\n' ∉ body) (hlen : body.length < n) :
    takeLine n (body ++ '\n' :: rest) = (body ++ ['\n'], rest) := by
  induction body generalizing n with
  | nil =>
    obtain ⟨n, rfl⟩ := Nat.exists_eq_succ_of_ne_zero (Nat.ne_of_gt hlen)
    rfl
  | cons c body ih =>
    obtain ⟨hc, hbody⟩ := List.ne_and_not_mem_of_not_mem_cons h
    obtain ⟨n, rfl⟩ := Nat.exists_eq_succ_of_ne_zero (Nat.ne_of_gt (Nat.zero_lt_of_lt hlen))
    rw [List.cons_append, takeLine, if_neg (Ne.symm hc), ih hbody (Nat.lt_of_succ_lt_succ hlen)]
    rfl

theorem takeLine_full (h : '\n' ∉ body) : takeLine body.length (body ++ rest) = (body, rest) := by
  induction body with
  | nil => rfl
  | cons c body ih =>
    obtain ⟨hc, hbody⟩ := List.ne_and_not_mem_of_not_mem_cons h
    rw [List.length_cons, List.cons_append, takeLine, if_neg (Ne.symm hc), ih hbody]

theorem takeLine_last (h : '\n' ∉ body) (hlen : body.length ≤ n) : takeLine n body = (body, []) := by
  induction body generalizing n with
  | nil => cases n <;> rfl
  | cons c body ih =>
    obtain ⟨hc, hbody⟩ := List.ne_and_not_mem_of_not_mem_cons h
    obtain ⟨n, rfl⟩ := Nat.exists_eq_succ_of_ne_zero (Nat.ne_of_gt (Nat.zero_lt_of_lt hlen))
    rw [takeLine, if_neg (Ne.symm hc), ih hbody (Nat.le_of_succ_le_succ hlen)]

/-- A call takes characters from the front of the text. -/
theorem takeLine_append_rest (n : Nat) (text : List Char) :
    (takeLine n text).1 ++ (takeLine n text).2 = text := by
  induction n generalizing text with
  | zero => rfl
  | succ n ih =>
    cases text with
    | nil => rfl
    | cons c text =>
      rw [takeLine]
      split
      · rfl
      · exact congrArg (List.cons c) (ih text)

theorem fgets_length (hsize : 1 < size) (h : fgets size text = some (buf, rest)) :
    rest.length < text.length := by
  rw [fgets] at h
  split at h
  · cases h
  · rename_i hne
    obtain ⟨c, text, rfl⟩ := List.exists_cons_of_ne_nil hne
    obtain ⟨room, hroom⟩ : ∃ room, size - 1 = room + 1 := ⟨size - 2, by omega⟩
    rw [Option.some.injEq, hroom, takeLine] at h
    split at h
    · cases h
      exact Nat.lt_succ_self _
    · rw [Prod.mk.injEq] at h
      have hle := congrArg List.length (takeLine_append_rest room text)
      rw [List.length_append] at hle
      rw [← h.2, List.length_cons]
      omega

/-- Further calls find the text used up. -/
theorem buffersIn_eq (hsize : 1 < size) (hn : text.length ≤ n) :
    buffersIn size n text = buffers size text := by
  have hle : ∀ m n, ∀ text : List Char, text.length ≤ m → text.length ≤ n →
      buffersIn size m text = buffersIn size n text := by
    intro m
    induction m with
    | zero =>
      intro n text hm hn
      obtain rfl := List.length_eq_zero_iff.mp (Nat.le_zero.mp hm)
      cases n <;> rfl
    | succ m ih =>
      intro n text hm hn
      cases n with
      | zero =>
        obtain rfl := List.length_eq_zero_iff.mp (Nat.le_zero.mp hn)
        rfl
      | succ n =>
        rw [buffersIn, buffersIn]
        cases hread : fgets size text with
        | none => rfl
        | some p =>
          obtain ⟨buf, rest⟩ := p
          have hlt := fgets_length hsize hread
          simp only [ih n rest (by omega) (by omega)]
  exact hle n text.length text hn (Nat.le_refl _)

/-- The loop that calls `fgets` until it returns NULL. -/
theorem buffers_eq (hsize : 1 < size) : buffers size text =
    match fgets size text with
    | none => []
    | some (buf, rest) => buf :: buffers size rest := by
  cases text with
  | nil => rfl
  | cons c text =>
    rw [buffers, List.length_cons, buffersIn]
    cases hread : fgets size (c :: text) with
    | none => rfl
    | some p =>
      obtain ⟨buf, rest⟩ := p
      have hlt := fgets_length hsize hread
      rw [List.length_cons] at hlt
      exact congrArg (List.cons buf) (buffersIn_eq hsize (Nat.le_of_lt_succ hlt))

theorem buffers_last (h : '\n' ∉ body) (hne : body ≠ []) (hlen : body.length < size) :
    buffers size body = [body] := by
  have hpos := List.length_pos_iff.mpr hne
  have hread : fgets size body = some (body, []) := by
    rw [fgets, if_neg hne, takeLine_last h (by omega)]
  rw [buffers_eq (by omega), hread]
  rfl

theorem buffers_append (h : '\n' ∉ body) (hlen : body.length + 1 < size) :
    buffers size (body ++ '\n' :: rest) = (body ++ ['\n']) :: buffers size rest := by
  have hread : fgets size (body ++ '\n' :: rest) = some (body ++ ['\n'], rest) := by
    rw [fgets, if_neg (by simp), takeLine_append h (by omega)]
  rw [buffers_eq (by omega), hread]

/-- A line that fills the buffer leaves its newline for the next call. -/
theorem buffers_full (h : '\n' ∉ body) (hlen : body.length + 1 = size) (hsize : 2 < size) :
    buffers size (body ++ '\n' :: rest) = body :: ['\n'] :: buffers size rest := by
  have hread : fgets size (body ++ '\n' :: rest) = some (body, '\n' :: rest) := by
    rw [fgets, if_neg (by simp), ← hlen, Nat.add_sub_cancel, takeLine_full h]
  rw [buffers_eq (by omega), hread]
  simp only [List.cons.injEq, true_and]
  exact @buffers_append size [] rest (by simp) (by simp; omega)

/-- On a text whose lines fit into the buffer, the loop sees the lines. -/
theorem buffers_eq_lines (h : ∀ l ∈ lines text, l.length < size) : buffers size text = lines text := by
  induction text using line_induction with
  | hnil => rfl
  | hlast body hbody hne =>
    rw [lines_last hbody hne] at h ⊢
    exact buffers_last hbody hne (h body List.mem_cons_self)
  | hline body rest hbody ih =>
    rw [lines_append hbody] at h ⊢
    obtain ⟨hlen, hrest⟩ := List.forall_mem_cons.mp h
    rw [List.length_append, List.length_singleton] at hlen
    rw [buffers_append hbody hlen, ih hrest]

/-! ## `sscanf` -/

/-- `isspace`. -/
def isspace (c : Char) : Bool := c = ' ' ∨ ('\t'.toNat ≤ c.toNat ∧ c.toNat ≤ '\r'.toNat)

/-- The value of a hexadecimal digit. -/
def hexDigit (c : Char) : Option Nat :=
  if '0'.toNat ≤ c.toNat ∧ c.toNat ≤ '9'.toNat then some (c.toNat - '0'.toNat)
  else if 'a'.toNat ≤ c.toNat ∧ c.toNat ≤ 'f'.toNat then some (c.toNat - 'a'.toNat + 10)
  else if 'A'.toNat ≤ c.toNat ∧ c.toNat ≤ 'F'.toNat then some (c.toNat - 'A'.toNat + 10)
  else none

/-- `isxdigit`. -/
def isxdigit (c : Char) : Bool := (hexDigit c).isSome

/-- The number that digits write, the most significant first. -/
def hexValue (digits : List Char) : Nat :=
  digits.foldl (fun n c => 16 * n + (hexDigit c).getD 0) 0

/-- The sign a number may have, and what follows it. -/
def scanSign : List Char → Bool × List Char
  | '-' :: cs => (true, cs)
  | '+' :: cs => (false, cs)
  | cs => (false, cs)

/-- What follows the prefix that marks a number as hexadecimal. -/
def scanPrefix : List Char → List Char
  | '0' :: 'x' :: cs => cs
  | '0' :: 'X' :: cs => cs
  | cs => cs

/-- The conversion `%lx`, with what is left. A number that is too large becomes the largest one, as
`strtoul` has it, and a sign negates. A bare `0x` is a matching failure, as the C standard has it;
glibc assigns 0 there. -/
def scanLong (cs : List Char) : Option (BitVec 64 × List Char) :=
  let (negative, cs) := scanSign (cs.dropWhile isspace)
  let cs := scanPrefix cs
  let digits := cs.takeWhile isxdigit
  if digits = [] then none
  else
    let value :=
      if 2 ^ 64 ≤ hexValue digits then BitVec.allOnes 64
      else if negative then -BitVec.ofNat 64 (hexValue digits)
      else BitVec.ofNat 64 (hexValue digits)
    some (value, cs.dropWhile isxdigit)

/-- The directives of a format: `%c`, a blank and `%lx`. -/
inductive Directive where
  | char
  | blank
  | long
deriving DecidableEq, Repr

/-- A value that `sscanf` assigns. -/
inductive Conversion where
  | char (c : Char)
  | long (n : BitVec 64)
deriving DecidableEq, Repr

/-- The values converted before the first conversion that fails. -/
def scan : List Directive → List Char → List Conversion
  | [], _ => []
  | .char :: _, [] => []
  | .char :: format, c :: cs => .char c :: scan format cs
  | .blank :: format, cs => scan format (cs.dropWhile isspace)
  | .long :: format, cs =>
    match scanLong cs with
    | none => []
    | some (n, cs) => .long n :: scan format cs

/-- `sscanf`, on the string in a buffer: it ends at a NUL. -/
def sscanf (buf : List Char) (format : List Directive) : List Conversion :=
  scan format (buf.takeWhile (· ≠ '\x00'))

/-! ### Numbers -/

/-- A number is written in hexadecimal digits, with or without the prefix that says so. -/
def WritesHex (number : List Char) (n : Nat) : Prop :=
  ∃ digits, digits ≠ [] ∧ (∀ c ∈ digits, isxdigit c) ∧ hexValue digits = n ∧
    (number = digits ∨ number = '0' :: 'x' :: digits ∨ number = '0' :: 'X' :: digits)

variable {digits number blanks : List Char}

theorem isxdigit_bounds (h : isxdigit c) : 48 ≤ c.toNat ∧ c.toNat ≤ 57 ∨
    65 ≤ c.toNat ∧ c.toNat ≤ 70 ∨ 97 ≤ c.toNat ∧ c.toNat ≤ 102 := by
  simp only [isxdigit, hexDigit, Char.reduceToNat] at h
  split at h
  · omega
  · split at h
    · omega
    · split at h
      · omega
      · cases h

theorem isspace_bounds (h : isspace c) : c.toNat = 32 ∨ 9 ≤ c.toNat ∧ c.toNat ≤ 13 := by
  simp only [isspace, Char.reduceToNat, decide_eq_true_eq] at h
  rcases h with rfl | h
  · exact .inl rfl
  · exact .inr h

theorem ne_of_isxdigit {d : Char} (h : isxdigit c)
    (hd : ¬(48 ≤ d.toNat ∧ d.toNat ≤ 57 ∨ 65 ≤ d.toNat ∧ d.toNat ≤ 70 ∨
      97 ≤ d.toNat ∧ d.toNat ≤ 102)) : c ≠ d := by
  rintro rfl
  exact hd (isxdigit_bounds h)

theorem not_isspace_of_isxdigit (h : isxdigit c) : isspace c = false := by
  rw [Bool.eq_false_iff]
  intro hspace
  have hdigit := isxdigit_bounds h
  have hblank := isspace_bounds hspace
  omega

theorem not_isxdigit_of_isspace (h : isspace c) : isxdigit c = false := by
  rw [Bool.eq_false_iff]
  intro hdigit
  rw [not_isspace_of_isxdigit hdigit] at h
  cases h

/-- A number begins with a digit. -/
theorem WritesHex.exists_cons (h : WritesHex number n) :
    ∃ c cs, number = c :: cs ∧ isxdigit c := by
  obtain ⟨digits, hne, hall, -, rfl | rfl | rfl⟩ := h
  · obtain ⟨c, cs, rfl⟩ := List.exists_cons_of_ne_nil hne
    exact ⟨c, cs, rfl, hall c List.mem_cons_self⟩
  · exact ⟨'0', _, rfl, rfl⟩
  · exact ⟨'0', _, rfl, rfl⟩

theorem scanSign_of_isxdigit (h : isxdigit c) : scanSign (c :: cs) = (false, c :: cs) := by
  have hminus : c ≠ '-' := ne_of_isxdigit h (by decide)
  have hplus : c ≠ '+' := ne_of_isxdigit h (by decide)
  simp [scanSign, hminus, hplus]

/-- No digit is the letter of a prefix. -/
theorem scanPrefix_digits (hne : digits ≠ []) (hall : ∀ c ∈ digits, isxdigit c)
    (hrest : ∀ c, rest.head? = some c → isspace c) :
    scanPrefix (digits ++ rest) = digits ++ rest := by
  have hletter : ∀ c d, (digits ++ rest).tail.head? = some c → ¬(isxdigit d ∨ isspace d) → c ≠ d := by
    rintro c d hc hd rfl
    obtain ⟨e, ds, rfl⟩ := List.exists_cons_of_ne_nil hne
    cases ds with
    | nil => exact hd (.inr (hrest c hc))
    | cons f ds =>
      cases hc
      exact hd (.inl (hall _ (by simp)))
  unfold scanPrefix
  split
  · rename_i cs heq
    rw [heq] at hletter
    exact absurd rfl (hletter 'x' 'x' rfl (by decide))
  · rename_i cs heq
    rw [heq] at hletter
    exact absurd rfl (hletter 'X' 'X' rfl (by decide))
  · rfl

theorem scanPrefix_number (h : WritesHex number n)
    (hrest : ∀ c, rest.head? = some c → isspace c) :
    ∃ digits, digits ≠ [] ∧ (∀ c ∈ digits, isxdigit c) ∧ hexValue digits = n ∧
      scanPrefix (number ++ rest) = digits ++ rest := by
  obtain ⟨digits, hne, hall, hvalue, rfl | rfl | rfl⟩ := h
  · exact ⟨number, hne, hall, hvalue, scanPrefix_digits hne hall hrest⟩
  · exact ⟨digits, hne, hall, hvalue, rfl⟩
  · exact ⟨digits, hne, hall, hvalue, rfl⟩

/-- A number that fits, behind blanks and before a blank or the end, is converted. -/
theorem scanLong_number (hblanks : ∀ c ∈ blanks, isspace c) (h : WritesHex number n)
    (hn : n < 2 ^ 64) (hrest : ∀ c, rest.head? = some c → isspace c) :
    scanLong (blanks ++ (number ++ rest)) = some (BitVec.ofNat 64 n, rest) := by
  obtain ⟨c, cs, hnumber, hc⟩ := h.exists_cons
  obtain ⟨digits, hne, hall, hvalue, hprefix⟩ := scanPrefix_number h hrest
  have hdrop : (blanks ++ (number ++ rest)).dropWhile isspace = number ++ rest := by
    rw [List.dropWhile_append_of_pos hblanks, hnumber, List.cons_append,
      List.dropWhile_cons_of_neg (by simp [not_isspace_of_isxdigit hc])]
  have hsign : scanSign (number ++ rest) = (false, number ++ rest) := by
    rw [hnumber, List.cons_append, scanSign_of_isxdigit hc]
  have hend : rest.takeWhile isxdigit = [] ∧ rest.dropWhile isxdigit = rest := by
    cases rest with
    | nil => exact ⟨rfl, rfl⟩
    | cons d rest =>
      have hd := not_isxdigit_of_isspace (hrest d rfl)
      exact ⟨List.takeWhile_cons_of_neg (by simp [hd]), List.dropWhile_cons_of_neg (by simp [hd])⟩
  have htake : (digits ++ rest).takeWhile isxdigit = digits := by
    rw [List.takeWhile_append_of_pos hall, hend.1, List.append_nil]
  have hleft : (digits ++ rest).dropWhile isxdigit = rest := by
    rw [List.dropWhile_append_of_pos hall, hend.2]
  simp only [scanLong, hdrop, hsign, hprefix, htake, hleft, hvalue]
  rw [if_neg hne, if_neg (by omega)]
  rfl

theorem WritesHex.ne_nul (h : WritesHex number n) : ∀ c ∈ number, c ≠ '\x00' := by
  obtain ⟨digits, -, hall, -, rfl | rfl | rfl⟩ := h
  · exact fun c hc => ne_of_isxdigit (hall c hc) (by decide)
  all_goals
    intro c hc
    rcases List.mem_cons.mp hc with rfl | hc
    · decide
    · rcases List.mem_cons.mp hc with rfl | hc
      · decide
      · exact ne_of_isxdigit (hall c hc) (by decide)

/-- The conversions of "%c %lx" on a character, blanks and a number. -/
theorem sscanf_char_long (hc : c ≠ '\x00') (hblanks : ∀ c ∈ blanks, isspace c)
    (h : WritesHex number n) (hn : n < 2 ^ 64) (hrest : ∀ c, rest.head? = some c → isspace c) :
    sscanf (c :: (blanks ++ (number ++ rest))) [.char, .blank, .long] =
      [.char c, .long (BitVec.ofNat 64 n)] := by
  have hblank : ∀ c ∈ blanks, c ≠ '\x00' := by
    rintro c hc rfl
    exact absurd (hblanks _ hc) (by decide)
  have hstring : (c :: (blanks ++ (number ++ rest))).takeWhile (· ≠ '\x00') =
      c :: (blanks ++ (number ++ rest.takeWhile (· ≠ '\x00'))) := by
    rw [List.takeWhile_cons_of_pos (by simpa using hc),
      List.takeWhile_append_of_pos (by simpa using hblank),
      List.takeWhile_append_of_pos (by simpa using h.ne_nul)]
  have hhead : ∀ c, (rest.takeWhile (· ≠ '\x00')).head? = some c → isspace c := by
    intro c hc
    rw [List.head?_takeWhile, Option.filter_eq_some_iff] at hc
    exact hrest c hc.1
  have hlong := scanLong_number hblanks h hn hhead
  rw [scanLong, ← List.dropWhile_idempotent isspace, ← scanLong] at hlong
  simp only [sscanf, hstring, scan, hlong]

/-! ## Python -/

/-- `str.strip`. -/
def strip (cs : List Char) : List Char := (cs.dropWhile isspace).rdropWhile isspace

/-- `int(cs, 16)`, where `none` is a `ValueError`. -/
def intHex (cs : List Char) : Option Int :=
  let (negative, cs) := scanSign (strip cs)
  let digits := scanPrefix cs
  if digits ≠ [] ∧ digits.all isxdigit then
    some (if negative then -(hexValue digits : Int) else hexValue digits)
  else none

/-- `format(n, 'x')`. -/
def formatHex : Int → List Char
  | .ofNat n => Nat.toDigits 16 n
  | .negSucc n => '-' :: Nat.toDigits 16 (n + 1)

/-- What is left does not end with a blank. -/
theorem not_isspace_of_strip (h : strip cs = body ++ [c]) : isspace c = false := by
  have hne : strip cs ≠ [] := by simp [h]
  have hlast := List.rdropWhile_last_not isspace (cs.dropWhile isspace) hne
  simp only [strip] at h
  simpa [h] using hlast

theorem hexDigit_digitChar (hn : n < 16) : hexDigit n.digitChar = some n := by
  have hall : ∀ d < 16, hexDigit (Nat.digitChar d) = some d := by decide
  exact hall n hn

theorem hexValue_concat (digits : List Char) (c : Char) :
    hexValue (digits ++ [c]) = 16 * hexValue digits + (hexDigit c).getD 0 := by
  rw [hexValue, List.foldl_append]
  rfl

/-- The digits of a number write it. -/
theorem writesHex_toDigits (n : Nat) : WritesHex (Nat.toDigits 16 n) n := by
  refine ⟨Nat.toDigits 16 n, Nat.toDigits_ne_nil, ?_, ?_, .inl rfl⟩
  · induction n using Nat.strongRecOn with
    | ind n ih =>
      rw [Nat.toDigits_eq_if (by decide)]
      intro c hc
      split at hc
      · rw [List.mem_singleton.mp hc, isxdigit, hexDigit_digitChar ‹_›]
        rfl
      · rcases List.mem_append.mp hc with hc | hc
        · exact ih (n / 16) (by omega) c hc
        · rw [List.mem_singleton.mp hc, isxdigit, hexDigit_digitChar (Nat.mod_lt n (by decide))]
          rfl
  · induction n using Nat.strongRecOn with
    | ind n ih =>
      rw [Nat.toDigits_eq_if (by decide)]
      split
      · simp [hexValue, hexDigit_digitChar ‹_›]
      · rw [hexValue_concat, ih (n / 16) (by omega), hexDigit_digitChar (Nat.mod_lt n (by decide))]
        exact Nat.div_add_mod n 16

theorem WritesHex.ne_newline (h : WritesHex number n) : '\n' ∉ number := by
  obtain ⟨digits, -, hall, -, rfl | rfl | rfl⟩ := h
  · exact fun hc => ne_of_isxdigit (hall _ hc) (by decide) rfl
  all_goals
    intro hc
    simp only [List.mem_cons] at hc
    rcases hc with hc | hc | hc
    · cases hc
    · cases hc
    · exact ne_of_isxdigit (hall _ hc) (by decide) rfl

example : intHex [' ', '+', '0', 'x', '1', 'F', '\n'] = some 31 := by decide

end Library
