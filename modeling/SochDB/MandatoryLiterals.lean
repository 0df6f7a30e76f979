import SochDB.GrepExecutor

/-!
When the literals read from a pattern are mandatory. The scanner reads the raw text, so it is
right about patterns of plain characters, escaped punctuation, single repetition operators,
wildcards and top-level alternatives, also behind flags that change neither the characters nor
white space, and wrong about escapes and flags that it does not know.
-/
namespace MandatoryLiterals
open CandidateGate TrigramIndexes GrepExecutor Runs List

section Containment
variable {fold : Lowercase}

theorem windows_append_left (before : List Char) {l : List Char} {tri : Trigram} (member : tri ∈ windows l) :
    tri ∈ windows (before ++ l) := by
  induction before with
  | nil => exact member
  | cons a before ih =>
    rw [cons_append]
    match shape : before ++ l with
    | b :: c :: rest =>
      rw [shape] at ih
      exact mem_cons_of_mem _ ih
    | [] | [_] =>
      rw [shape] at ih
      cases ih

theorem windows_append_right {l : List Char} (after : List Char) {tri : Trigram} (member : tri ∈ windows l) :
    tri ∈ windows (l ++ after) := by
  induction l using windows.induct with
  | case1 a b c rest ih =>
    rcases mem_cons.mp member with rfl | later
    · exact mem_cons_self
    · exact mem_cons_of_mem _ (ih later)
  | case2 l short =>
    rw [windows.eq_def] at member
    split at member
    · exact absurd rfl (short _ _ _ _)
    · cases member

theorem mem_trigramsOf {text : Text} {tri : Trigram} :
    tri ∈ trigramsOf fold text ↔ tri ∈ windows (text.flatMap fold.lower) := by
  unfold trigramsOf
  dsimp only
  split
  · rename_i short
    match known : text.flatMap fold.lower with
    | [] | [_] | [_, _] => rfl
    | a :: b :: c :: rest =>
      rw [known] at short
      simp only [length_cons] at short
      omega
  · exact SortedKeys.mem_sortDedup

theorem contains_of_inside {term text : Text} (inside : term <:+: text) : Contains fold term text := by
  obtain ⟨before, after, rfl⟩ := inside
  intro tri member
  rw [mem_trigramsOf] at member ⊢
  rw [flatMap_append, flatMap_append]
  exact windows_append_right _ (windows_append_left _ member)

end Containment

section Pieces

/-- A character that stands for itself, with or without a backslash. -/
inductive Atom where
  | plain (c : Char)
  | escaped (c : Char)

namespace Atom

def char : Atom → Char
  | plain c | escaped c => c

def render : Atom → Text
  | plain c => [c]
  | escaped c => ['\\', c]

/-- Characters with a meaning of their own need the backslash; after it, letters, digits and angle
    brackets have another meaning. -/
def Literal : Atom → Prop
  | plain c => c ∉ complexChars ∧ c ∉ ['\\', '*', '?', '.', '^', '$', '+']
  | escaped c => c.isAlphanum = false ∧ c ∉ ['|', '<', '>']

end Atom

inductive Piece where
  | one (atom : Atom)
  | optional (atom : Atom) (op : Char) (more : List Char)
  | repeated (atom : Atom) (lazy : Bool)
  | wild (c : Char) (more : List Char)
  | charClass (c : Char) (more : List Char)

namespace Piece

def render : Piece → Text
  | one atom => atom.render
  | optional atom op more => atom.render ++ op :: more
  | repeated atom lazy => atom.render ++ '+' :: (if lazy then ['?'] else [])
  | wild c more => c :: more
  | charClass c more => '\\' :: c :: more

def operators : List Char := ['*', '?', '+']

/-- The classes, boundaries and control characters that one letter names. -/
def classLetters : List Char :=
  ['d', 'D', 'w', 'W', 's', 'S', 'b', 'B', 'A', 'z', 'n', 't', 'r', 'f', 'v', 'a']

def Valid : Piece → Prop
  | one atom => atom.Literal
  | optional atom op more => atom.Literal ∧ op ∈ ['*', '?'] ∧ ∀ c ∈ more, c ∈ operators
  | repeated atom _ => atom.Literal
  | wild c more => c ∈ ['.', '^', '$'] ∧ ∀ c ∈ more, c ∈ operators
  | charClass c more => c ∈ classLetters ∧ ∀ c ∈ more, c ∈ operators

def Accepts : Piece → Text → Prop
  | one atom, part => part = [atom.char]
  | repeated atom _, part => ∃ rest, part = atom.char :: rest
  | _, _ => True

end Piece

def renderAll (pieces : List Piece) : Text := pieces.flatMap Piece.render

def Occurs (pieces : List Piece) (text : Text) : Prop :=
  ∃ before parts after, text = before ++ (parts.flatten ++ after) ∧ List.Forall₂ Piece.Accepts pieces parts

section Scanner
variable {rest cur : Text} {runs : List Text}

theorem scan_complex {c : Char} (complex : c ∈ complexChars) : scanLiterals (c :: rest) cur runs = none := by
  rw [scanLiterals.eq_def]
  exact if_pos complex

theorem scan_plain {c : Char} (literal : (Atom.plain c).Literal) :
    scanLiterals (c :: rest) cur runs = scanLiterals rest (cur ++ [c]) runs := by
  obtain ⟨simple, other⟩ := literal
  simp only [mem_cons, not_mem_nil, or_false, not_or] at other
  obtain ⟨noBackslash, noStar, noQuestion, noOther⟩ := other
  rw [scanLiterals.eq_def]
  simp only [simple, noBackslash, noStar, noQuestion, noOther, mem_cons, not_mem_nil, or_self, if_false]

theorem scan_escaped (c : Char) :
    scanLiterals ('\\' :: c :: rest) cur runs =
      if c.isAlphanum then scanLiterals rest [] (flush cur runs) else scanLiterals rest (cur ++ [c]) runs := by
  rw [scanLiterals.eq_def]
  rfl

theorem scan_optional {c : Char} (op : c ∈ ['*', '?']) :
    scanLiterals (c :: rest) cur runs = scanLiterals rest [] (flush cur.dropLast runs) := by
  have either : c = '*' ∨ c = '?' := by simpa using op
  rw [scanLiterals.eq_def]
  rcases either with rfl | rfl <;> rfl

theorem scan_separator {c : Char} (op : c ∈ ['.', '^', '$', '+']) :
    scanLiterals (c :: rest) cur runs = scanLiterals rest [] (flush cur runs) := by
  have one : c = '.' ∨ c = '^' ∨ c = '$' ∨ c = '+' := by simpa using op
  rw [scanLiterals.eq_def]
  rcases one with rfl | rfl | rfl | rfl <;> rfl

theorem scan_atom {atom : Atom} (literal : atom.Literal) :
    scanLiterals (atom.render ++ rest) cur runs = scanLiterals rest (cur ++ [atom.char]) runs := by
  cases atom with
  | plain c => exact scan_plain literal
  | escaped c => exact (scan_escaped c).trans (if_neg (by simp [literal.1]))

theorem scan_operators {ops : List Char} (all : ∀ c ∈ ops, c ∈ Piece.operators) :
    scanLiterals (ops ++ rest) [] runs = scanLiterals rest [] runs := by
  induction ops with
  | nil => rfl
  | cons c ops ih =>
    obtain ⟨first, others⟩ := forall_mem_cons.mp all
    have one : c ∈ ['*', '?'] ∨ c ∈ ['.', '^', '$', '+'] := by
      simp only [Piece.operators, mem_cons, not_mem_nil, or_false] at first ⊢
      tauto
    rw [cons_append, ← ih others]
    rcases one with op | op
    · exact scan_optional op
    · exact scan_separator op

end Scanner

variable {text : Text} {piece : Piece} {pieces : List Piece}

theorem flush_inside {cur : Text} {runs : List Text} (current : cur <:+: text)
    (each : ∀ run ∈ runs, run <:+: text) : ∀ run ∈ flush cur runs, run <:+: text := by
  unfold flush
  split
  · exact each
  · exact forall_mem_append.mpr ⟨each, forall_mem_singleton.mpr current⟩

/-- Where a piece ends the current run, the run has been read in the text, and the next
    one begins behind what the piece has accepted. -/
theorem run_ended {cur before part after text : Text} {runs : List Text}
    (shape : text = before ++ (cur ++ (part ++ after))) (each : ∀ run ∈ runs, run <:+: text) :
    (∃ before', text = before' ++ ([] ++ after)) ∧ ∀ run ∈ flush cur runs, run <:+: text := by
  subst shape
  exact ⟨⟨before ++ (cur ++ part), by simp⟩, flush_inside ⟨before, part ++ after, by simp⟩ each⟩

/-- The scanner passes over valid pieces. Where the text before the rest ends with the current run,
    it still does, and the runs are parts of the text. -/
theorem scan_piece (valid : piece.Valid) (rest cur : Text) (runs : List Text) :
    ∃ cur' runs', scanLiterals (piece.render ++ rest) cur runs = scanLiterals rest cur' runs' ∧
      ∀ text before part after, piece.Accepts part → text = before ++ (cur ++ (part ++ after)) →
        (∀ run ∈ runs, run <:+: text) →
        (∃ before', text = before' ++ (cur' ++ after)) ∧ ∀ run ∈ runs', run <:+: text := by
  cases piece with
  | one atom =>
    refine ⟨cur ++ [atom.char], runs, scan_atom valid, ?_⟩
    rintro text before _ after rfl rfl each
    exact ⟨⟨before, by simp⟩, each⟩
  | optional atom op more =>
    obtain ⟨literal, isOp, others⟩ := valid
    refine ⟨[], flush cur runs, ?_, ?_⟩
    · rw [Piece.render, append_assoc, scan_atom literal, cons_append, scan_optional isOp,
        dropLast_concat, scan_operators others]
    · intro text before part after _ shape each
      exact run_ended shape each
  | repeated atom lazy =>
    have others : ∀ c ∈ (if lazy then ['?'] else []), c ∈ Piece.operators := by
      cases lazy <;> simp [Piece.operators]
    refine ⟨[], flush (cur ++ [atom.char]) runs, ?_, ?_⟩
    · rw [Piece.render, append_assoc, scan_atom valid, cons_append, scan_separator (by decide),
        scan_operators others]
    · rintro text before _ after ⟨more, rfl⟩ shape each
      have read : text = before ++ ((cur ++ [atom.char]) ++ (more ++ after)) := by simpa using shape
      exact run_ended read each
  | wild c more =>
    obtain ⟨isWild, others⟩ := valid
    have separates : c ∈ ['.', '^', '$', '+'] := by
      simp only [mem_cons, not_mem_nil, or_false] at isWild ⊢
      tauto
    refine ⟨[], flush cur runs, ?_, ?_⟩
    · rw [Piece.render, cons_append, scan_separator separates, scan_operators others]
    · intro text before part after _ shape each
      exact run_ended shape each
  | charClass c more =>
    obtain ⟨isClass, others⟩ := valid
    refine ⟨[], flush cur runs, ?_, ?_⟩
    · have letters : ∀ c ∈ Piece.classLetters, c.isAlphanum = true := all_eq_true.mp (by decide)
      rw [Piece.render, cons_append, cons_append, scan_escaped, if_pos (letters c isClass),
        scan_operators others]
    · intro text before part after _ shape each
      exact run_ended shape each

theorem scan_pieces (valid : ∀ piece ∈ pieces, piece.Valid) (rest cur : Text) (runs : List Text) :
    ∃ cur' runs', scanLiterals (renderAll pieces ++ rest) cur runs = scanLiterals rest cur' runs' ∧
      ∀ text before parts after, List.Forall₂ Piece.Accepts pieces parts →
        text = before ++ (cur ++ (parts.flatten ++ after)) → (∀ run ∈ runs, run <:+: text) →
        cur' <:+: text ∧ ∀ run ∈ runs', run <:+: text := by
  induction pieces generalizing cur runs with
  | nil =>
    refine ⟨cur, runs, rfl, ?_⟩
    rintro text before parts after accepted rfl each
    cases accepted
    exact ⟨⟨before, after, by simp⟩, each⟩
  | cons piece pieces ih =>
    obtain ⟨here, others⟩ := forall_mem_cons.mp valid
    obtain ⟨cur₁, runs₁, first, stays⟩ := scan_piece here (renderAll pieces ++ rest) cur runs
    obtain ⟨cur₂, runs₂, second, ends⟩ := ih others cur₁ runs₁
    refine ⟨cur₂, runs₂, ?_, ?_⟩
    · rw [renderAll, flatMap_cons, append_assoc]
      exact first.trans second
    · intro text before parts after accepted shape each
      cases accepted with
      | @cons _ part _ parts head tail =>
        rw [flatten_cons, append_assoc] at shape
        obtain ⟨⟨before', shape'⟩, each'⟩ := stays text before part (parts.flatten ++ after) head shape each
        exact ends text before' parts after tail shape' each'

theorem requiredLiterals_inside (valid : ∀ piece ∈ pieces, piece.Valid) {runs : List Text}
    (found : requiredLiterals (renderAll pieces) = some runs) (occurs : Occurs pieces text) :
    ∀ run ∈ runs, run <:+: text := by
  obtain ⟨before, parts, after, shape, accepted⟩ := occurs
  obtain ⟨cur, all, scanned, ends⟩ := scan_pieces valid [] [] []
  obtain ⟨current, each⟩ := ends text before parts after accepted shape (by simp)
  rw [append_nil] at scanned
  unfold requiredLiterals at found
  rw [scanned] at found
  dsimp only [scanLiterals, Option.bind_some] at found
  split at found
  · cases found
  · cases found
    intro run member
    exact flush_inside current each run (mem_filter.mp member).1

theorem pipe_not_mem_render (valid : piece.Valid) : '|' ∉ piece.render := by
  have atoms : ∀ {atom : Atom}, atom.Literal → '|' ∉ atom.render := by
    intro atom literal
    cases atom with
    | plain c =>
      intro member
      rw [← mem_singleton.mp member] at literal
      exact literal.1 (by decide)
    | escaped c =>
      intro member
      have isPipe : c = '|' := by simpa [Atom.render, eq_comm] using member
      exact literal.2 (by simp [isPipe])
  have operators : ∀ {more : List Char}, (∀ c ∈ more, c ∈ Piece.operators) → '|' ∉ more := by
    intro more all member
    exact absurd (all _ member) (by decide)
  cases piece with
  | one atom => exact atoms valid
  | optional atom op more =>
    obtain ⟨literal, isOp, others⟩ := valid
    have notOp : '|' ≠ op := fun same => absurd (same ▸ isOp) (by decide)
    simp [Piece.render, atoms literal, operators others, notOp]
  | repeated atom lazy =>
    cases lazy <;> simp [Piece.render, atoms valid]
  | wild c more =>
    obtain ⟨isWild, others⟩ := valid
    have notWild : '|' ≠ c := fun same => absurd (same ▸ isWild) (by decide)
    simp [Piece.render, operators others, notWild]
  | charClass c more =>
    obtain ⟨isClass, others⟩ := valid
    have notClass : '|' ≠ c := fun same => absurd (same ▸ isClass) (by decide)
    simp [Piece.render, operators others, notClass]

theorem pipe_not_mem (valid : ∀ piece ∈ pieces, piece.Valid) : '|' ∉ renderAll pieces := by
  intro member
  obtain ⟨piece, inside, here⟩ := mem_flatMap.mp member
  exact pipe_not_mem_render (valid piece inside) here

theorem render_starts (valid : piece.Valid) : ∃ c rest, piece.render = c :: rest ∧ c ≠ '(' := by
  have atoms : ∀ {atom : Atom}, atom.Literal → ∃ c rest, atom.render = c :: rest ∧ c ≠ '(' := by
    intro atom literal
    cases atom with
    | plain c =>
      refine ⟨c, [], rfl, ?_⟩
      rintro rfl
      exact literal.1 (by decide)
    | escaped c => exact ⟨_, _, rfl, by decide⟩
  cases piece with
  | one atom => exact atoms valid
  | optional atom op more =>
    obtain ⟨c, rest, shape, other⟩ := atoms valid.1
    exact ⟨c, rest ++ op :: more, by rw [Piece.render, shape, cons_append], other⟩
  | repeated atom lazy =>
    obtain ⟨c, rest, shape, other⟩ := atoms valid
    exact ⟨c, _, by rw [Piece.render, shape, cons_append], other⟩
  | wild c more =>
    refine ⟨c, more, rfl, ?_⟩
    rintro rfl
    exact absurd valid.1 (by decide)
  | charClass c more => exact ⟨_, _, rfl, by decide⟩

def renderBranches (branches : List (List Piece)) : Text := ['|'].intercalate (branches.map renderAll)

/-- Flags that leave the meaning of the pieces as it is. -/
def harmlessFlags : List Char := ['m', 's', 'u', 'U']

def renderPattern (flags : List Char) (branches : List (List Piece)) : Text :=
  (if flags = [] then [] else '(' :: '?' :: (flags ++ [')'])) ++ renderBranches branches

theorem strip_flags {flags : List Char} (harmless : ∀ c ∈ flags, c ∈ harmlessFlags) (some : flags ≠ [])
    (rest : Text) : stripLeadingInlineFlags ('(' :: '?' :: (flags ++ ')' :: rest)) = rest := by
  have letters : ∀ c ∈ harmlessFlags, c ≠ ')' ∧ c.isAlpha = true := by
    simp [harmlessFlags, Char.isAlpha, Char.isUpper, Char.isLower]
  have taken : (flags ++ ')' :: rest).takeWhile (· ≠ ')') = flags := by
    rw [takeWhile_append_of_pos, takeWhile_cons_of_neg (by simp), append_nil]
    intro c member
    simpa using (letters c (harmless c member)).1
  have alphabetic : (flags.all fun c => c.isAlpha || c = '-') = true := by
    rw [all_eq_true]
    intro c member
    rw [(letters c (harmless c member)).2, Bool.true_or]
  simp only [stripLeadingInlineFlags, taken]
  rw [if_pos ⟨mem_append_right flags mem_cons_self, some, alphabetic⟩, ← drop_drop, drop_left]
  rfl

theorem strip_rendered {pieces : List Piece} (valid : ∀ piece ∈ pieces, piece.Valid) {rest : Text}
    (plain : ∀ after, rest ≠ '(' :: after) :
    stripLeadingInlineFlags (renderAll pieces ++ rest) = renderAll pieces ++ rest := by
  have starts : ∀ after, renderAll pieces ++ rest ≠ '(' :: after := by
    cases pieces with
    | nil => exact plain
    | cons piece pieces =>
      obtain ⟨c, more, shape, other⟩ := render_starts (valid piece mem_cons_self)
      intro after same
      rw [renderAll, flatMap_cons, shape, cons_append, cons_append] at same
      exact other (List.cons.inj same).1
  unfold stripLeadingInlineFlags
  split
  · rename_i shape
    exact absurd shape (starts _)
  · rfl

theorem branchLiterals_mem {raws branches : List Text} (found : branchLiterals raws = some branches) {raw : Text}
    (member : raw ∈ raws) : ∃ run ∈ branches, requiredLiterals raw = some [run] := by
  induction raws generalizing branches with
  | nil => cases member
  | cons first rest ih =>
    rw [branchLiterals] at found
    split at found
    · rename_i run single
      obtain ⟨others, later, rfl⟩ := Option.map_eq_some_iff.mp found
      rcases mem_cons.mp member with rfl | inside
      · exact ⟨run, mem_cons_self, single⟩
      · obtain ⟨run, listed, read⟩ := ih later inside
        exact ⟨run, mem_cons_of_mem _ listed, read⟩
    · cases found

theorem planned_of_occurs {fold : Lowercase} {flags : List Char} (harmless : ∀ c ∈ flags, c ∈ harmlessFlags)
    {branches : List (List Piece)} (valid : ∀ pieces ∈ branches, ∀ piece ∈ pieces, piece.Valid)
    (chosen : pieces ∈ branches) (occurs : Occurs pieces text) :
    Planned fold (renderPattern flags branches) text := by
  obtain ⟨first, others, rfl⟩ := exists_cons_of_ne_nil (ne_nil_of_mem chosen)
  have firstValid := valid first mem_cons_self
  obtain ⟨tail, shape, single⟩ : ∃ tail, renderBranches (first :: others) = renderAll first ++ tail ∧
      (tail = [] ∧ others = [] ∨ ∃ more, tail = '|' :: more) := by
    cases others with
    | nil => exact ⟨[], by simp [renderBranches], .inl ⟨rfl, rfl⟩⟩
    | cons second others =>
      exact ⟨'|' :: renderBranches (second :: others), by simp [renderBranches], .inr ⟨_, rfl⟩⟩
  have plainTail : ∀ after, tail ≠ '(' :: after := by
    intro after same
    rcases single with ⟨rfl, _⟩ | ⟨more, rfl⟩
    · cases same
    · exact absurd (List.cons.inj same).1 (by decide)
  have stripped : stripLeadingInlineFlags (renderPattern flags (first :: others)) =
      renderBranches (first :: others) := by
    unfold renderPattern
    split
    · rw [nil_append, shape]
      exact strip_rendered firstValid plainTail
    · rename_i some
      rw [cons_append, cons_append, append_assoc]
      exact strip_flags harmless some _
  unfold Planned literalTerms
  rw [stripped]
  cases alternatives : literalAlternation (renderBranches (first :: others)) with
  | some runs =>
    have split : (renderBranches (first :: others)).splitOn '|' = (first :: others).map renderAll := by
      apply splitOn_intercalate
      · intro raw member
        obtain ⟨pieces, inside, rfl⟩ := mem_map.mp member
        exact pipe_not_mem (valid pieces inside)
      · simp
    have read := (literalAlternation_some alternatives).2
    rw [split] at read
    obtain ⟨run, listed, single⟩ := branchLiterals_mem read (mem_map_of_mem chosen)
    have inside := requiredLiterals_inside (valid pieces chosen) single occurs run mem_cons_self
    exact ⟨run, listed, contains_of_inside inside⟩
  | none =>
    rcases single with ⟨rfl, rfl⟩ | ⟨more, rfl⟩
    · obtain rfl := mem_singleton.mp chosen
      rw [shape, append_nil]
      cases literals : requiredLiterals (renderAll pieces) with
      | none => exact fun _ impossible => absurd impossible not_mem_nil
      | some runs =>
        exact fun run listed => contains_of_inside (requiredLiterals_inside firstValid literals occurs run listed)
    · -- the scanner stops at the bar
      obtain ⟨cur, runs, scanned, _⟩ := scan_pieces firstValid ('|' :: more) [] []
      have stopped : requiredLiterals (renderAll first ++ '|' :: more) = none := by
        rw [requiredLiterals, scanned, scan_complex (by decide)]
        rfl
      rw [shape, stopped]
      exact fun _ impossible => absurd impossible not_mem_nil

end Pieces

/-- What a correct engine says about such a pattern. -/
def Describes (branches : List (List Piece)) (isMatch : Text → Bool) : Prop :=
  ∀ text, isMatch text = true → ∃ pieces ∈ branches, Occurs pieces text

section Examples

def asciiLower : Lowercase := ⟨fun c => [c.toLower], fun _ => List.cons_ne_nil _ _⟩

def parseOrLex : List (List Piece) :=
  [("parse".toList.map fun c => .one (.plain c)) ++ [.wild '$' []],
   [.one (.plain 'l'), .one (.plain 'e'), .repeated (.plain 'x') false]]

def eitherWord : Text → Bool := fun text => "parse".toList <:+ text ∨ "lex".toList <:+: text

/-- Patterns with a text that they match, and that is not found: an escape by code, an optional
    character behind two operators, ignored white space, and the start of a word. -/
def misread : List (Text × Text) :=
  [("\\x41bcd".toList, "Abcd".toList), ("abc+*".toList, "ab".toList),
   ("(?x)abc def".toList, "abcdef".toList), ("\\<abcd".toList, "abcd".toList)]

end Examples

end MandatoryLiterals
