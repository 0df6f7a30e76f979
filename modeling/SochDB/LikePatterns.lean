import SochDB.SqlExpressions

/-!
The LIKE matcher: one pass over the text that keeps only the last percent sign to come
back to, and the recursive meaning of a pattern that it decides.
-/
namespace LikePatterns
open List

/-- The loop's variables; the last percent sign has taken the text up to starSi. -/
structure Cursor where
  si : Nat
  pi : Nat
  starPi : Option Nat
  starSi : Nat
  behind : starSi ≤ si

def skipTrailing : List Char → List Char
  | '%' :: p => skipTrailing p
  | p => p

def scan (s p : List Char) (cur : Cursor) : Bool :=
  if cur.si < s.length then
    if p[cur.pi]? = some '%' then
      scan s p ⟨cur.si, cur.pi + 1, some cur.pi, cur.si, le_rfl⟩
    else if p[cur.pi]? = some '_' ∨ p[cur.pi]? = s[cur.si]? then
      scan s p ⟨cur.si + 1, cur.pi + 1, cur.starPi, cur.starSi, cur.behind.trans (Nat.le_succ _)⟩
    else match cur.starPi with
      -- the last percent sign takes one more character
      | some spi => scan s p ⟨cur.starSi + 1, spi + 1, some spi, cur.starSi + 1, le_rfl⟩
      | none => false
  else skipTrailing (p.drop cur.pi) = []
-- a restart moves starSi and every other turn moves pi, so there are at most as many
-- turns as the product of the two lengths
termination_by (s.length - cur.starSi) * (p.length + 1) + (p.length - cur.pi)
decreasing_by
  · rename_i more percent
    have inside := (List.getElem?_eq_some_iff.mp percent).1
    have fewer := Nat.mul_le_mul_right (p.length + 1) (Nat.sub_le_sub_left cur.behind s.length)
    omega
  · rename_i more _ same
    have inside : cur.pi < p.length := by
      by_contra past
      simp [List.getElem?_eq_none (Nat.le_of_not_lt past), more] at same
    omega
  · rename_i more _ _
    have left : s.length - cur.starSi = s.length - (cur.starSi + 1) + 1 := by
      have := cur.behind
      omega
    rw [left, Nat.succ_mul]
    omega

def likeMatchChars (s p : List Char) : Bool := scan s p ⟨0, 0, none, 0, le_rfl⟩

def likeMatch (s pattern : String) : Bool := likeMatchChars s.toList pattern.toList

/-- What a pattern means: a percent sign stands for any characters, an underscore for one,
    and every other character for itself. -/
def Like : List Char → List Char → Prop
  | [], s => s = []
  | c :: p, s =>
    if c = '%' then ∃ taken rest, s = taken ++ rest ∧ Like p rest
    else ∃ d rest, s = d :: rest ∧ (c = '_' ∨ c = d) ∧ Like p rest

variable {s p : List Char} {i j : Nat} {c : Char}

theorem drop_of_get (here : p[i]? = some c) : p.drop i = c :: p.drop (i + 1) := by
  obtain ⟨inside, rfl⟩ := List.getElem?_eq_some_iff.mp here
  exact drop_eq_getElem_cons inside

theorem like_percent_iff (here : p[i]? = some '%') :
    Like (p.drop i) (s.drop j) ↔ ∃ k, j ≤ k ∧ Like (p.drop (i + 1)) (s.drop k) := by
  rw [drop_of_get here, Like, if_pos rfl]
  constructor
  · rintro ⟨taken, rest, split, likes⟩
    refine ⟨j + taken.length, Nat.le_add_right _ _, ?_⟩
    have left : s.drop (j + taken.length) = rest := by
      rw [← drop_drop, split, drop_left]
    rwa [left]
  · rintro ⟨k, later, likes⟩
    refine ⟨(s.drop j).take (k - j), s.drop k, ?_, likes⟩
    have rest : (s.drop j).drop (k - j) = s.drop k := by
      rw [drop_drop, Nat.add_sub_cancel' later]
    rw [← rest, take_append_drop]

theorem like_plain_iff (here : p[i]? = some c) (plain : c ≠ '%') :
    Like (p.drop i) (s.drop j) ↔
      ∃ d, s[j]? = some d ∧ (c = '_' ∨ c = d) ∧ Like (p.drop (i + 1)) (s.drop (j + 1)) := by
  rw [drop_of_get here, Like, if_neg plain]
  constructor
  · rintro ⟨d, rest, split, fits, likes⟩
    have first : s[j]? = some d := by rw [← List.head?_drop, split, List.head?_cons]
    have tail : s.drop (j + 1) = rest := by rw [← tail_drop, split, tail_cons]
    exact ⟨d, first, fits, tail ▸ likes⟩
  · rintro ⟨d, first, fits, likes⟩
    exact ⟨d, s.drop (j + 1), drop_of_get first, fits, likes⟩

theorem like_end_iff (past : p[i]? = none) : Like (p.drop i) (s.drop j) ↔ s.drop j = [] := by
  rw [drop_eq_nil_of_le (List.getElem?_eq_none_iff.mp past), Like]

theorem like_past_stretch {n : Nat} (stretch : ∀ k, i ≤ k → k < i + n → p[k]? ≠ some '%')
    (likes : Like (p.drop i) (s.drop j)) : Like (p.drop (i + n)) (s.drop (j + n)) := by
  induction n with
  | zero => exact likes
  | succ n ih =>
    have before := ih fun k low high => stretch k low (by omega)
    cases here : p[i + n]? with
    | some c =>
      have plain : c ≠ '%' := fun eq => stretch (i + n) (by omega) (by omega) (eq ▸ here)
      obtain ⟨_, _, _, rest⟩ := (like_plain_iff here plain).mp before
      exact rest
    | none =>
      rw [like_end_iff here] at before
      have gone : p[i + (n + 1)]? = none := by
        rw [List.getElem?_eq_none_iff] at here ⊢
        omega
      rw [like_end_iff gone, ← Nat.add_assoc, ← drop_drop, before, drop_nil]

/-- Since the last percent sign the cursor has gone over a stretch without another one. -/
def Anchored (p : List Char) (cur : Cursor) : Prop :=
  ∀ spi, cur.starPi = some spi → ∃ n, cur.pi = spi + 1 + n ∧ cur.si = cur.starSi + n ∧
    ∀ k, spi + 1 ≤ k → k < spi + 1 + n → p[k]? ≠ some '%'

/-- The matches still in reach: the one under way, and a later start of the last percent sign. -/
def InReach (s p : List Char) (cur : Cursor) : Prop :=
  Like (p.drop cur.pi) (s.drop cur.si) ∨
    ∃ spi j, cur.starPi = some spi ∧ cur.starSi < j ∧ Like (p.drop (spi + 1)) (s.drop j)

theorem later_start_passes {cur : Cursor} (anchored : Anchored p cur) {spi : Nat}
    (star : cur.starPi = some spi) (later : cur.starSi < j)
    (likes : Like (p.drop (spi + 1)) (s.drop j)) :
    ∃ k, cur.si < k ∧ Like (p.drop cur.pi) (s.drop k) := by
  obtain ⟨n, pattern, text, stretch⟩ := anchored spi star
  refine ⟨j + n, by omega, ?_⟩
  rw [pattern]
  exact like_past_stretch stretch likes

theorem skipTrailing_iff (p : List Char) : skipTrailing p = [] ↔ Like p [] := by
  fun_induction skipTrailing p with
  | case1 p ih =>
    rw [ih, Like, if_pos rfl]
    constructor
    · exact fun likes => ⟨[], [], rfl, likes⟩
    · rintro ⟨taken, rest, split, likes⟩
      rwa [(append_eq_nil_iff.mp split.symm).2] at likes
  | case2 p other =>
    cases p with
    | nil => simp [Like]
    | cons c p =>
      have plain : c ≠ '%' := fun eq => other p (eq ▸ rfl)
      simp [Like, plain]

theorem not_like_of_mismatch {cur : Cursor} (more : cur.si < s.length)
    (other : ¬p[cur.pi]? = some '%') (differ : ¬(p[cur.pi]? = some '_' ∨ p[cur.pi]? = s[cur.si]?)) :
    ¬Like (p.drop cur.pi) (s.drop cur.si) := by
  cases here : p[cur.pi]? with
  | none =>
    rw [like_end_iff here, drop_eq_nil_iff]
    omega
  | some c =>
    rw [like_plain_iff here fun eq => other (eq ▸ here)]
    rintro ⟨d, text, rfl | rfl, _⟩
    · exact differ (.inl here)
    · exact differ (.inr (here.trans text.symm))

theorem scan_iff (s p : List Char) (cur : Cursor) (anchored : Anchored p cur) :
    scan s p cur = true ↔ InReach s p cur := by
  fun_induction scan s p cur with
  | case1 cur more percent ih =>
    rw [ih (by rintro spi ⟨⟩; exact ⟨0, rfl, rfl, by omega⟩)]
    constructor
    · rintro (now | ⟨_, j, ⟨⟩, later, likes⟩)
      · exact .inl ((like_percent_iff percent).mpr ⟨cur.si, le_rfl, now⟩)
      · exact .inl ((like_percent_iff percent).mpr ⟨j, later.le, likes⟩)
    · intro reach
      -- the new percent sign takes whatever an earlier one could still have taken
      have here : ∃ k, cur.si ≤ k ∧ Like (p.drop cur.pi) (s.drop k) := by
        rcases reach with now | ⟨spi, j, star, later, likes⟩
        · exact ⟨cur.si, le_rfl, now⟩
        · obtain ⟨k, above, rest⟩ := later_start_passes anchored star later likes
          exact ⟨k, above.le, rest⟩
      obtain ⟨k, above, likes⟩ := here
      obtain ⟨j, later, rest⟩ := (like_percent_iff percent).mp likes
      rcases (above.trans later).eq_or_lt with rfl | past
      · exact .inl rest
      · exact .inr ⟨cur.pi, j, rfl, past, rest⟩
  | case2 cur more other same ih =>
    have text : s[cur.si]? = some s[cur.si] := List.getElem?_eq_getElem more
    obtain ⟨c, here, fits⟩ : ∃ c, p[cur.pi]? = some c ∧ (c = '_' ∨ c = s[cur.si]) := by
      rcases same with under | equal
      · exact ⟨_, under, .inl rfl⟩
      · exact ⟨_, equal.trans text, .inr rfl⟩
    have plain : c ≠ '%' := fun eq => other (eq ▸ here)
    rw [ih ?_]
    · refine or_congr ?_ Iff.rfl
      rw [like_plain_iff here plain]
      exact ⟨fun likes => ⟨_, text, fits, likes⟩, fun ⟨_, _, _, likes⟩ => likes⟩
    · intro spi star
      obtain ⟨n, pattern, reached, stretch⟩ := anchored spi star
      refine ⟨n + 1, by dsimp only; omega, by dsimp only; omega, fun k low high => ?_⟩
      rcases Nat.lt_or_ge k (spi + 1 + n) with inner | last
      · exact stretch k low inner
      · obtain rfl : k = cur.pi := by omega
        exact other
  | case3 cur more other differ spi star ih =>
    rw [ih (by rintro _ ⟨⟩; exact ⟨0, rfl, rfl, by omega⟩)]
    constructor
    · rintro (next | ⟨_, j, ⟨⟩, later, likes⟩)
      · exact .inr ⟨spi, _, star, Nat.lt_succ_self _, next⟩
      · exact .inr ⟨spi, j, star, Nat.lt_of_succ_lt later, likes⟩
    · rintro (now | ⟨_, j, same, later, likes⟩)
      · exact absurd now (not_like_of_mismatch more other differ)
      · obtain rfl := Option.some.inj (star.symm.trans same)
        rcases Nat.eq_or_lt_of_le (Nat.succ_le_of_lt later) with rfl | past
        · exact .inl likes
        · exact .inr ⟨spi, j, rfl, past, likes⟩
  | case4 cur more other differ star =>
    simp [InReach, star, not_like_of_mismatch more other differ]
  | case5 cur whole =>
    have nothing_left {k : Nat} (past : cur.si ≤ k) : s.drop k = [] :=
      drop_eq_nil_of_le ((Nat.le_of_not_lt whole).trans past)
    rw [decide_eq_true_iff, skipTrailing_iff, InReach, nothing_left le_rfl]
    refine ⟨.inl, ?_⟩
    rintro (now | ⟨spi, j, star, later, likes⟩)
    · exact now
    · obtain ⟨k, above, rest⟩ := later_start_passes anchored star later likes
      rwa [nothing_left above.le] at rest

theorem likeMatchChars_iff (s p : List Char) : likeMatchChars s p = true ↔ Like p s := by
  rw [likeMatchChars, scan_iff _ _ _ (by rintro spi ⟨⟩)]
  simp [InReach]

/-- The matcher ends on every text and pattern, and says what the pattern means. -/
theorem likeMatch_iff_like (s pattern : String) :
    likeMatch s pattern = true ↔ Like pattern.toList s.toList :=
  likeMatchChars_iff s.toList pattern.toList

open SqlExpressions in
def liking (host : Host) : Host :=
  { host with likeMatch := fun s pattern => likeMatch s.display pattern.display }

open SqlExpressions in
theorem like_evaluates (host : Host) (s pattern : Utf8.Str) :
    evalBinaryOp (liking host) (.text s) .like (.text pattern) = .bool true ↔
      Like pattern.display.toList s.display.toList := by
  rw [← likeMatchChars_iff]
  exact ⟨fun same => by injection same, congrArg _⟩

end LikePatterns
