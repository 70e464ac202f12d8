-- SUMMARY: What print_pagedirectory prints at the end of a run, and that every entry can be read from it.
import OperatingSystems.Library.Texts
import OperatingSystems.Paging.Simulator

/-!
# The page tables, printed

After a run the page directory and its tables are printed, a range for each run of invalid entries. The
directory's last range is never printed, but nothing is lost: what no line speaks of is invalid.
-/

namespace Paging

open Library Library.Run Library.Texts

/-! ## The code -/

/-- What has been printed, and the two variables for the range that is open. -/
structure Printer where
  stdout : List Char
  firstInvalid : Int
  lastInvalid : Int
deriving DecidableEq, Repr

namespace Printer

def print (s : Printer) (text : List Char) : Printer := { s with stdout := s.stdout ++ text }

/-- An entry that is invalid. -/
def invalid (s : Printer) (i : Nat) : Printer :=
  let s := if s.firstInvalid = -1 then { s with firstInvalid := i } else s
  { s with lastInvalid := i }

/-- The range that is open is printed, if there is one. -/
def flush (s : Printer) (range : Int → Int → List Char) : Printer :=
  if s.firstInvalid ≠ -1 then
    { s.print (range s.firstInvalid s.lastInvalid) with firstInvalid := -1, lastInvalid := -1 }
  else s

end Printer

/-- The format of `print_pagetbl` for a range. -/
def tableRange (first last : Int) : List Char :=
  "\t[".toList ++ decimal first ++ "] - [".toList ++ decimal last ++ "]: INVALID\n".toList

/-- The format of `print_pagedirectory` for a range. -/
def directoryRange (first last : Int) : List Char :=
  "[".toList ++ decimal first ++ "]: INVALID\n  to\n[".toList ++ decimal last ++
    "]: INVALID\n".toList

/-- The loop body of `print_pagetbl`. `%lu` takes the offset as an unsigned number. -/
def pagetblRound (pgtbl : Nat → PgtblEntry) (i : Nat) (s : Printer) : Except Fault Printer :=
  if (pgtbl i).valid = false ∧ (pgtbl i).onswap = false then .ok (s.invalid i)
  else
    let s := s.flush tableRange
    let s := s.print ("\t[".toList ++ decimal i ++ "]: ".toList)
    if (pgtbl i).valid then
      let s := s.print "VALID, ".toList
      let s := if (pgtbl i).dirty then s.print "DIRTY, ".toList else s
      .ok (s.print ("in frame ".toList ++ decimal (pgtbl i).frameNo ++ ['\n']))
    else do
      need ((pgtbl i).onswap = true) .assertion
      .ok (s.print ("ONSWAP, at offset ".toList ++
        decimal ((pgtbl i).swapOff % 2 ^ 64) ++ ['\n']))

/-- `print_pagetbl`. -/
def printPagetbl (pgtbl : Nat → PgtblEntry) (stdout : List Char) : Except Fault (List Char) := do
  let s ← upTo PTRS_PER_PGTBL (pagetblRound pgtbl)
    { stdout := stdout, firstInvalid := -1, lastInvalid := -1 }
  .ok (s.flush tableRange).stdout

/-- What `%p` prints, in whatever form: it stays on its line, and does not look like `INVALID`. -/
structure Pointer where
  text : List Char
  line : '\n' ∉ text
  head : text.head? ≠ some 'I'

/-- The loop body of `print_pagedirectory`, where `%p` prints `pointer i` for the table of entry `i`. -/
def pagedirectoryRound (pointer : Nat → Pointer) (pgdir : Nat → Option (Nat → PgtblEntry))
    (i : Nat) (s : Printer) : Except Fault Printer :=
  match pgdir i with
  | none => .ok (s.invalid i)
  | some pgtbl => do
    let s := s.flush directoryRange
    let s := s.print ("[".toList ++ decimal i ++ "]: ".toList ++ (pointer i).text ++ ['\n'])
    let stdout ← printPagetbl pgtbl s.stdout
    .ok { s with stdout := stdout }

/-- `print_pagedirectory`. -/
def printPagedirectory (pointer : Nat → Pointer) (pgdir : Nat → Option (Nat → PgtblEntry))
    (stdout : List Char) : Except Fault (List Char) := do
  let s ← upTo PTRS_PER_PGDIR (pagedirectoryRound pointer pgdir)
    { stdout := stdout, firstInvalid := -1, lastInvalid := -1 }
  .ok s.stdout

/-! ## Pieces -/

/-- What is printed of an entry that is not invalid. -/
inductive Shown where
  | valid (dirty : Bool) (frame : Nat)
  | onswap (offset : Nat)
deriving DecidableEq, Repr

/-- What the dump shows of an entry. -/
def PgtblEntry.shown (e : PgtblEntry) : Option Shown :=
  if e.valid then some (.valid e.dirty e.frameNo)
  else if e.onswap then some (.onswap (e.swapOff % 2 ^ 64).toNat)
  else none

/-- The text of a piece of a table. -/
def tableText : Piece Shown → List Char
  | .blanks first last => tableRange first last
  | .item i (.valid dirty frame) => "\t[".toList ++ decimal i ++ "]: ".toList ++ "VALID, ".toList ++
    (if dirty then "DIRTY, ".toList else []) ++ ("in frame ".toList ++ decimal frame ++ ['\n'])
  | .item i (.onswap offset) => "\t[".toList ++ decimal i ++ "]: ".toList ++
    ("ONSWAP, at offset ".toList ++ decimal offset ++ ['\n'])

/-- The text of a piece of the directory: the pointer to a table, and the table. -/
def directoryText : Piece (Pointer × List (Piece Shown)) → List Char
  | .blanks first last => directoryRange first last
  | .item i (pointer, table) => "[".toList ++ decimal i ++ "]: ".toList ++ pointer.text ++ ['\n'] ++
    table.flatMap tableText

/-- What follows the first number and its bracket. -/
def tableTail : Piece Shown → List Char
  | .blanks _ last => ' ' :: '-' :: ' ' :: '[' :: (Nat.toDigits 10 last ++ "]: INVALID\n".toList)
  | .item _ (.valid dirty frame) => ':' :: ' ' :: 'V' :: 'A' :: 'L' :: 'I' :: 'D' :: ',' :: ' ' ::
    ((if dirty then 'D' :: "IRTY, ".toList else []) ++
      ('i' :: ("n frame ".toList ++ (Nat.toDigits 10 frame ++ ['\n']))))
  | .item _ (.onswap offset) => ':' :: ' ' :: 'O' ::
    ("NSWAP, at offset ".toList ++ (Nat.toDigits 10 offset ++ ['\n']))

theorem tableText_eq (p : Piece Shown) :
    tableText p = '\t' :: '[' :: (Nat.toDigits 10 p.number ++ ']' :: tableTail p) := by
  rcases p with ⟨first, last⟩ | ⟨i, ⟨dirty, frame⟩ | offset⟩
  all_goals
    simp only [tableText, tableRange, List.append_assoc]
    rfl

/-- Behind the first number, each kind of piece has a character of its own, and ends with a newline. -/
theorem tableTail_split {p q : Piece Shown} {x y : List Char} (hnumber : p.number = q.number)
    (h : tableTail p ++ x = tableTail q ++ y) : p = q ∧ x = y := by
  have hrest : ∀ {m n : Nat} {c : Char} {z w : List Char}, c.isDigit = false →
      Nat.toDigits 10 m ++ c :: z = Nat.toDigits 10 n ++ c :: w → m = n ∧ z = w := by
    intro m n c z w hc h
    obtain ⟨hnum, hcons⟩ := decimal_split hc hc h
    exact ⟨hnum, List.tail_eq_of_cons_eq hcons⟩
  rcases p with ⟨first, last⟩ | ⟨i, ⟨dirty, frame⟩ | offset⟩ <;>
    rcases q with ⟨first', last'⟩ | ⟨i', ⟨dirty', frame'⟩ | offset'⟩ <;>
    simp only [tableTail, Piece.number, List.cons_append, List.append_assoc, List.cons.injEq,
      true_and, Char.reduceEq, false_and, List.nil_append] at h hnumber
  case blanks.blanks =>
    obtain ⟨rfl, hxy⟩ := hrest (c := ']') (by decide) h
    rw [hnumber]
    exact ⟨rfl, List.append_cancel_left hxy⟩
  case item.valid.item.valid =>
    cases dirty <;> cases dirty' <;>
      simp only [if_true, if_false, List.nil_append, List.cons_append, List.cons.injEq,
        Char.reduceEq, true_and, false_and, Bool.false_eq_true] at h
    case false.false =>
      obtain ⟨rfl, rfl⟩ := hrest (by decide) (List.append_cancel_left h)
      rw [hnumber]
      exact ⟨rfl, rfl⟩
    case true.true =>
      obtain ⟨rfl, rfl⟩ := hrest (by decide)
        (List.append_cancel_left (List.tail_eq_of_cons_eq (List.append_cancel_left h)))
      rw [hnumber]
      exact ⟨rfl, rfl⟩
  case item.onswap.item.onswap =>
    obtain ⟨rfl, rfl⟩ := hrest (by decide) (List.append_cancel_left h)
    rw [hnumber]
    exact ⟨rfl, rfl⟩

theorem tableText_split (p q : Piece Shown) (x y : List Char)
    (h : tableText p ++ x = tableText q ++ y) : p = q ∧ x = y := by
  rw [tableText_eq, tableText_eq] at h
  simp only [List.cons_append, List.append_assoc, List.cons.injEq, true_and] at h
  obtain ⟨hnumber, hrest⟩ := decimal_split (by decide) (by decide) h
  exact tableTail_split hnumber (List.tail_eq_of_cons_eq hrest)

theorem delimited_tableText : Delimited tableText '\t' fun _ => True where
  head p x := by
    rw [tableText_eq]
    rfl
  good _ _ := trivial
  split p q x y _ _ h := tableText_split p q x y h

/-- What follows the first number and its bracket. -/
def directoryTail : Piece (Pointer × List (Piece Shown)) → List Char
  | .blanks _ last =>
    ':' :: ' ' :: 'I' :: ("NVALID\n  to\n[".toList ++ (Nat.toDigits 10 last ++ "]: INVALID\n".toList))
  | .item _ (pointer, table) => ':' :: ' ' :: (pointer.text ++ '\n' :: table.flatMap tableText)

theorem directoryText_eq (p : Piece (Pointer × List (Piece Shown))) : directoryText p =
    '[' :: (Nat.toDigits 10 p.number ++ ']' :: directoryTail p) := by
  rcases p with ⟨first, last⟩ | ⟨i, pointer, table⟩
  all_goals
    simp only [directoryText, directoryRange, List.append_assoc]
    rfl

/-- The table of an entry ends where no line begins with a tab. -/
theorem directoryTail_split {p q : Piece (Pointer × List (Piece Shown))} {x y : List Char}
    (hnumber : p.number = q.number) (hx : x.head? ≠ some '\t') (hy : y.head? ≠ some '\t')
    (h : directoryTail p ++ x = directoryTail q ++ y) : p = q ∧ x = y := by
  have hhead : ∀ (pointer : Pointer) (more : List Char),
      (pointer.text ++ '\n' :: more).head? ≠ some 'I' := by
    intro pointer more
    have hne := pointer.head
    cases htext : pointer.text with
    | nil => simp
    | cons c cs => rwa [htext] at hne
  rcases p with ⟨first, last⟩ | ⟨i, pointer, table⟩ <;>
    rcases q with ⟨first', last'⟩ | ⟨i', pointer', table'⟩ <;>
    simp only [directoryTail, Piece.number, List.cons_append, List.append_assoc, List.cons.injEq,
      true_and] at h hnumber
  case blanks.blanks =>
    obtain ⟨rfl, hrest⟩ := decimal_split (by decide) (by decide) (List.append_cancel_left h)
    simp at hrest
    simp [hnumber, hrest]
  case blanks.item => exact absurd (h ▸ rfl) (hhead pointer' (table'.flatMap tableText ++ y))
  case item.blanks => exact absurd (h.symm ▸ rfl) (hhead pointer (table.flatMap tableText ++ x))
  case item.item =>
    obtain ⟨hpointer, hrest⟩ := line_split pointer.line pointer'.line h
    obtain ⟨rfl, rfl⟩ := delimited_tableText.flatMap_split trivial trivial hx hy hrest
    have heq : pointer = pointer' := by
      cases pointer
      cases pointer'
      cases hpointer
      rfl
    rw [hnumber, heq]
    exact ⟨rfl, rfl⟩

theorem delimited_directoryText : Delimited directoryText '[' fun x => x.head? ≠ some '\t' where
  head p x := by
    rw [directoryText_eq]
    rfl
  good x hx := by
    rw [hx]
    decide
  split p q x y hx hy h := by
    rw [directoryText_eq, directoryText_eq] at h
    simp only [List.cons_append, List.append_assoc, List.cons.injEq, true_and] at h
    obtain ⟨hnumber, hrest⟩ := decimal_split (by decide) (by decide) h
    exact directoryTail_split hnumber hx hy (List.tail_eq_of_cons_eq hrest)

/-! ## What is printed -/

section Printing

variable {β : Type} {text : Piece β → List Char} {start stdout : List Char} {f : Nat → Option β}
  {i : Nat} {s : Printer} {pgtbl pgtbl' : Nat → PgtblEntry}
  {pgdir pgdir' : Nat → Option (Nat → PgtblEntry)} {pointer pointer' : Nat → Pointer}

/-- The printer has printed the finished pieces of the first items, and its variables are for the run
that is not finished. -/
structure Printed (text : Piece β → List Char) (start : List Char) (f : Nat → Option β) (i : Nat)
    (s : Printer) : Prop where
  stdout : s.stdout = start ++ (pieces f i).done.flatMap text
  closed : (pieces f i).first = none → s.firstInvalid = -1
  opened : ∀ first : Nat, (pieces f i).first = some first →
    s.firstInvalid = first ∧ s.lastInvalid = (i - 1 : Nat)

namespace Printed

theorem nothing :
    Printed text stdout f 0 { stdout := stdout, firstInvalid := -1, lastInvalid := -1 } where
  stdout := (List.append_nil stdout).symm
  closed _ := rfl
  opened _ h := by cases h

theorem invalid (h : Printed text start f i s) (hf : f i = none) :
    Printed text start f (i + 1) (s.invalid i) := by
  have hpieces : pieces f (i + 1) =
      { pieces f i with first := some ((pieces f i).first.getD i) } := by rw [pieces, hf]
  constructor
  · rw [hpieces, Printer.invalid]
    split <;> exact h.stdout
  · rw [hpieces]
    intro hnone
    cases hnone
  · rw [hpieces]
    intro first hfirst
    obtain rfl := Option.some.inj hfirst
    refine ⟨?_, by rw [Printer.invalid]; rfl⟩
    rw [Printer.invalid]
    cases hold : (pieces f i).first with
    | none =>
      rw [if_pos (h.closed hold)]
      rfl
    | some first =>
      have hs := (h.opened first hold).1
      rw [if_neg (by omega)]
      exact hs

/-- After a flush, all runs are printed. -/
theorem flush {range : Int → Int → List Char} (h : Printed text start f i s)
    (hrange : ∀ first last : Nat, text (.blanks first last) = range first last) :
    (s.flush range).stdout =
        start ++ ((pieces f i).done ++ lastRun (pieces f i).first i).flatMap text ∧
      (s.flush range).firstInvalid = -1 := by
  rw [Printer.flush]
  cases hfirst : (pieces f i).first with
  | none =>
    have hnone := h.closed hfirst
    rw [if_neg fun hne => hne hnone, lastRun, List.append_nil]
    exact ⟨h.stdout, hnone⟩
  | some first =>
    obtain ⟨hs, hl⟩ := h.opened first hfirst
    rw [if_pos (by omega), hs, hl, ← hrange, Printer.print, h.stdout, lastRun, List.flatMap_append,
      List.append_assoc]
    exact ⟨by simp only [List.flatMap_cons, List.flatMap_nil, List.append_nil], rfl⟩

/-- An item is printed behind the runs before it. -/
theorem item {b : β} {range : Int → Int → List Char} {s' : Printer} (h : Printed text start f i s)
    (hrange : ∀ first last : Nat, text (.blanks first last) = range first last) (hf : f i = some b)
    (hstdout : s'.stdout = (s.flush range).stdout ++ text (.item i b))
    (hfirst : s'.firstInvalid = (s.flush range).firstInvalid) : Printed text start f (i + 1) s' := by
  have hpieces : pieces f (i + 1) =
      ⟨(pieces f i).done ++ lastRun (pieces f i).first i ++ [.item i b], none⟩ := by
    rw [pieces, hf]
  have hlast : ∀ ps : List (Piece β), (ps ++ [Piece.item i b]).flatMap text =
      ps.flatMap text ++ text (.item i b) := fun ps => by
    rw [List.flatMap_append, List.flatMap_singleton]
  obtain ⟨hflushed, hclosed⟩ := h.flush hrange
  constructor
  · rw [hpieces, hstdout, hflushed, List.append_assoc, hlast]
  · exact fun _ => hfirst.trans hclosed
  · rw [hpieces]
    intro first hnone
    cases hnone

end Printed

/-- What a table shows. -/
def tableShown (pgtbl : Nat → PgtblEntry) (i : Nat) : Option Shown := (pgtbl i).shown

theorem pagetblRound_printed (h : Printed tableText start (tableShown pgtbl) i s) :
    ∃ s', pagetblRound pgtbl i s = .ok s' ∧
      Printed tableText start (tableShown pgtbl) (i + 1) s' := by
  have hrange : ∀ first last : Nat, tableText (.blanks first last) = tableRange first last :=
    fun _ _ => rfl
  rw [pagetblRound]
  cases hvalid : (pgtbl i).valid with
  | true =>
    have hshown : tableShown pgtbl i = some (.valid (pgtbl i).dirty (pgtbl i).frameNo) := by
      rw [tableShown, PgtblEntry.shown, if_pos hvalid]
    rw [if_neg (by simp), if_pos rfl]
    refine ⟨_, rfl, h.item hrange hshown ?_ ?_⟩
    · cases hdirty : (pgtbl i).dirty <;> simp [tableText, Printer.print]
    · cases hdirty : (pgtbl i).dirty <;> rfl
  | false =>
    cases honswap : (pgtbl i).onswap with
    | true =>
      have hshown : tableShown pgtbl i =
          some (.onswap ((pgtbl i).swapOff % 2 ^ 64).toNat) := by
        rw [tableShown, PgtblEntry.shown, if_neg (by simp [hvalid]), if_pos honswap]
      have hoffset : (((pgtbl i).swapOff % 2 ^ 64).toNat : Int) = (pgtbl i).swapOff % 2 ^ 64 :=
        Int.toNat_of_nonneg (Int.emod_nonneg _ (by decide))
      rw [if_neg (by simp), if_neg (by simp), need_of rfl, ok_bind]
      refine ⟨_, rfl, h.item hrange hshown ?_ rfl⟩
      simp only [tableText, Printer.print, hoffset, List.append_assoc]
    | false =>
      have hshown : tableShown pgtbl i = none := by
        rw [tableShown, PgtblEntry.shown, if_neg (by simp [hvalid]), if_neg (by simp [honswap])]
      rw [if_pos ⟨rfl, rfl⟩]
      exact ⟨_, rfl, h.invalid hshown⟩

/-- The assertion of `print_pagetbl` holds, and all its pieces are printed. -/
theorem printPagetbl_eq (pgtbl : Nat → PgtblEntry) (stdout : List Char) : printPagetbl pgtbl stdout =
    .ok (stdout ++ (finished (tableShown pgtbl) PTRS_PER_PGTBL).flatMap tableText) := by
  obtain ⟨s, hrun, hs⟩ := upTo_rule (n := PTRS_PER_PGTBL) (f := pagetblRound pgtbl)
    (I := fun i => Printed tableText stdout (tableShown pgtbl) i) .nothing
    fun i _ s hs => pagetblRound_printed hs
  rw [printPagetbl, hrun, ok_bind, (hs.flush fun _ _ => rfl).1]
  rfl

/-- What the directory shows: its pointers, and what their tables show. -/
def directoryShown (pointer : Nat → Pointer) (pgdir : Nat → Option (Nat → PgtblEntry)) (i : Nat) :
    Option (Pointer × List (Piece Shown)) :=
  (pgdir i).map fun pgtbl => (pointer i, finished (tableShown pgtbl) PTRS_PER_PGTBL)

theorem pagedirectoryRound_printed
    (h : Printed directoryText start (directoryShown pointer pgdir) i s) :
    ∃ s', pagedirectoryRound pointer pgdir i s = .ok s' ∧
      Printed directoryText start (directoryShown pointer pgdir) (i + 1) s' := by
  rw [pagedirectoryRound]
  cases hpgdir : pgdir i with
  | none => exact ⟨_, rfl, h.invalid (by rw [directoryShown, hpgdir]; rfl)⟩
  | some pgtbl =>
    have hshown : directoryShown pointer pgdir i =
        some (pointer i, finished (tableShown pgtbl) PTRS_PER_PGTBL) := by
      rw [directoryShown, hpgdir]
      rfl
    have hrange : ∀ first last : Nat, directoryText (.blanks first last) = directoryRange first last :=
      fun _ _ => rfl
    dsimp only
    rw [printPagetbl_eq, ok_bind]
    refine ⟨_, rfl, h.item hrange hshown ?_ rfl⟩
    simp only [directoryText, Printer.print, List.append_assoc]

/-- The pieces of the directory are printed, but for the last range. -/
theorem printPagedirectory_eq (pointer : Nat → Pointer) (pgdir : Nat → Option (Nat → PgtblEntry))
    (stdout : List Char) : printPagedirectory pointer pgdir stdout = .ok
      (stdout ++ (pieces (directoryShown pointer pgdir) PTRS_PER_PGDIR).done.flatMap directoryText) := by
  obtain ⟨s, hrun, hs⟩ := upTo_rule (n := PTRS_PER_PGDIR) (f := pagedirectoryRound pointer pgdir)
    (I := fun i => Printed directoryText stdout (directoryShown pointer pgdir) i) .nothing
    fun i _ s hs => pagedirectoryRound_printed hs
  rw [printPagedirectory, hrun, ok_bind, hs.stdout]

end Printing

/-! ## Reading it back -/

variable {σ φ τ ψ : Type}

/-- Printing the page directory never fails, and two simulators that print the same have the same pages
in memory, in the same frames and with the same dirty bits, and the same pages on swap, at the same
offsets, wherever their tables are. -/
theorem printPagedirectory_determines (pointer pointer' : Nat → Pointer) (s : Sim σ φ) (t : Sim τ ψ)
    (stdout : List Char) : ∃ out out', printPagedirectory pointer s.pgdir stdout = .ok out ∧
      printPagedirectory pointer' t.pgdir stdout = .ok out' ∧
      (out = out' → ∀ p : PtePtr, p.dir < PTRS_PER_PGDIR → p.idx < PTRS_PER_PGTBL →
        (s.entry p).shown = (t.entry p).shown) := by
  refine ⟨_, _, printPagedirectory_eq pointer s.pgdir stdout,
    printPagedirectory_eq pointer' t.pgdir stdout, fun hout p hdir hidx => ?_⟩
  have htext := congrArg (· ++ ([] : List Char)) (List.append_cancel_left hout)
  obtain ⟨hpieces, _⟩ := delimited_directoryText.flatMap_split (by decide) (by decide) (by decide)
    (by decide) htext
  have hentry := eq_of_pieces hpieces hdir
  simp only [directoryShown, Sim.entry] at hentry ⊢
  cases hs : s.pgdir p.dir with
  | none =>
    cases ht : t.pgdir p.dir with
    | none => rfl
    | some pgtbl' =>
      rw [hs, ht] at hentry
      cases hentry
  | some pgtbl =>
    cases ht : t.pgdir p.dir with
    | none =>
      rw [hs, ht] at hentry
      cases hentry
    | some pgtbl' =>
      rw [hs, ht, Option.map_some, Option.map_some, Option.some.injEq, Prod.mk.injEq] at hentry
      exact eq_of_finished hentry.2 hidx

end Paging
