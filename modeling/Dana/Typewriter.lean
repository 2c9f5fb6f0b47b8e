import Mathlib.Data.List.Induction
import Mathlib.Logic.Basic

/-! A typewriter: keys are struck on a page whose rows have a number of columns and which has no
end downwards. A window of some rows shows the last ones, down to the row that is typed in. -/
namespace Typewriter

inductive Key (α : Type*)
  | char (a : α)
  | newline
  | ret
  | tab
  | back

/-- The cells by row and column, and the carriage. -/
structure Page (α : Type*) where
  cell : ℕ → ℕ → α
  row : ℕ
  col : ℕ

variable {α : Type*}

def Page.empty (blank : α) : Page α := ⟨fun _ _ => blank, 0, 0⟩

def Page.put (p : Page α) (a : α) : Page α :=
  {p with cell := fun r c => if r = p.row ∧ c = p.col then a else p.cell r c}

def Page.down (p : Page α) : Page α := {p with row := p.row+1, col := 0}

/-- A line is full at `cols` columns. -/
def Page.advance (cols : ℕ) (p : Page α) : Page α :=
  if cols ≤ p.col+1 then p.down else {p with col := p.col+1}

/-- A key is struck; there is a tab stop every `stop` columns. -/
def Page.press (cols stop : ℕ) (p : Page α) : Key α → Page α
  | .char a => (p.put a).advance cols
  | .newline => p.down
  | .ret => {p with col := 0}
  | .tab => {p with col := (p.col/stop+1)*stop}
  | .back => {p with col := p.col-1}

def Page.type (cols stop : ℕ) (p : Page α) (keys : List (Key α)) : Page α :=
  keys.foldl (Page.press cols stop) p

/-- The first row in a window of `rows` rows. -/
def Page.top (rows : ℕ) (p : Page α) : ℕ := p.row+1-rows

/-- Nothing has been typed below the carriage. -/
def Page.BlankBelow (blank : α) (p : Page α) : Prop := ∀ r c, p.row < r → p.cell r c = blank

variable {cols stop rows : ℕ} {p : Page α} {k : Key α} {blank : α}

@[simp] theorem Page.type_nil : p.type cols stop [] = p := rfl

theorem Page.type_append (keys keys' : List (Key α)) :
    p.type cols stop (keys ++ keys') = (p.type cols stop keys).type cols stop keys' :=
  List.foldl_append

theorem Page.type_snoc (keys : List (Key α)) (k : Key α) :
    p.type cols stop (keys ++ [k]) = (p.type cols stop keys).press cols stop k := by
  rw [Page.type_append]
  rfl

theorem Page.advance_row : (p.advance cols).row = p.row ∨ (p.advance cols).row = p.row+1 := by
  rw [Page.advance]
  split_ifs
  · exact Or.inr rfl
  · exact Or.inl rfl

theorem Page.advance_cell : (p.advance cols).cell = p.cell := by
  rw [Page.advance]
  split_ifs <;> rfl

/-- The carriage goes down a row at most, and never up. -/
theorem Page.press_row :
    (p.press cols stop k).row = p.row ∨ (p.press cols stop k).row = p.row+1 := by
  cases k with
  | char a => exact Page.advance_row
  | newline => exact Or.inr rfl
  | ret => exact Or.inl rfl
  | tab => exact Or.inl rfl
  | back => exact Or.inl rfl

/-- Only the row of the carriage is typed in. -/
theorem Page.press_cell {r : ℕ} (hr : r ≠ p.row) (c : ℕ) :
    (p.press cols stop k).cell r c = p.cell r c := by
  cases k with
  | char a =>
    rw [Page.press, Page.advance_cell]
    exact if_neg fun h => hr h.1
  | newline => rfl
  | ret => rfl
  | tab => rfl
  | back => rfl

/-- What is below the carriage is below the old one too. -/
theorem Page.BlankBelow.press (h : p.BlankBelow blank) :
    (p.press cols stop k).BlankBelow blank := by
  intro r c hr
  have hlt : p.row < r := by
    rcases @Page.press_row _ cols stop p k with hk | hk <;> omega
  rw [Page.press_cell (Nat.ne_of_gt hlt)]
  exact h r c hlt

theorem Page.BlankBelow.type (h : p.BlankBelow blank) (keys : List (Key α)) :
    (p.type cols stop keys).BlankBelow blank := by
  induction keys using List.reverseRecOn with
  | nil => exact h
  | append_singleton keys k ih =>
    rw [Page.type_snoc]
    exact ih.press

theorem Page.blankBelow_empty : (Page.empty blank).BlankBelow blank := fun _ _ _ => rfl

/-- A row that the carriage has just come down to is blank. -/
theorem Page.BlankBelow.press_row (h : p.BlankBelow blank)
    (hdown : p.row < (p.press cols stop k).row) (c : ℕ) :
    (p.press cols stop k).cell (p.press cols stop k).row c = blank := by
  rw [Page.press_cell (Nat.ne_of_gt hdown)]
  exact h _ c hdown

/-- Only a tab takes the carriage out of the columns. -/
theorem Page.press_col_lt (hk : k ≠ .tab) (hcol : p.col < cols) :
    (p.press cols stop k).col < cols := by
  have hpos : 0 < cols := by omega
  cases k with
  | char a =>
    rw [Page.press, Page.advance]
    split_ifs with hlast
    · exact hpos
    · exact Nat.not_le.mp hlast
  | newline => exact hpos
  | ret => exact hpos
  | tab => exact absurd rfl hk
  | back => exact Nat.lt_of_le_of_lt (Nat.sub_le _ _) hcol

theorem Page.type_col_lt {keys : List (Key α)} (hk : .tab ∉ keys) (hcol : p.col < cols) :
    (p.type cols stop keys).col < cols := by
  induction keys using List.reverseRecOn with
  | nil => exact hcol
  | append_singleton keys k ih =>
    rw [Page.type_snoc]
    apply Page.press_col_lt
    · exact fun he => hk (he ▸ List.mem_append_right _ List.mem_cons_self)
    · exact ih fun he => hk (List.mem_append_left _ he)

/-- The window moves down with the carriage once it is full. -/
theorem Page.top_press (hrows : 0 < rows) : (p.press cols stop k).top rows =
    if rows ≤ (p.press cols stop k).row-p.top rows then p.top rows+1 else p.top rows := by
  rcases @Page.press_row _ cols stop p k with hk | hk
  · rw [Page.top, Page.top, hk]
    split_ifs <;> omega
  · rw [Page.top, Page.top, hk]
    split_ifs <;> omega

/-- How many cells the carriage has passed. -/
def Page.passed (cols : ℕ) (p : Page α) : ℕ := p.row*cols+p.col

theorem Page.passed_press_char (a : α) (hcol : p.col < cols) :
    (p.press cols stop (.char a)).passed cols = p.passed cols+1 := by
  rw [Page.press, Page.advance]
  split_ifs with hlast
  · have hfull : p.col+1 = cols := by
      change cols ≤ p.col+1 at hlast
      omega
    calc (p.row+1)*cols+0 = p.row*cols+cols := by rw [Nat.add_mul, Nat.one_mul, Nat.add_zero]
      _ = p.row*cols+p.col+1 := by rw [Nat.add_assoc, hfull]
  · rfl

/-- A text of characters runs through the columns of one row after the other. -/
theorem Page.type_chars (hcols : 0 < cols) (blank : α) (text : List α) :
    let p := (Page.empty blank).type cols stop (text.map .char)
    p.col < cols ∧ p.passed cols = text.length ∧
      ∀ r c, c < cols → p.cell r c = text.getD (r*cols+c) blank := by
  induction text using List.reverseRecOn with
  | nil => exact ⟨hcols, by simp [Page.passed, Page.empty], fun _ _ _ => rfl⟩
  | append_singleton text a ih =>
    obtain ⟨hcol, hpassed, hcell⟩ := ih
    rw [List.map_append, List.map_singleton, Page.type_snoc, List.length_append,
      List.length_singleton]
    generalize (Page.empty blank).type cols stop (text.map .char) = p at hcol hpassed hcell
    refine ⟨Page.press_col_lt (by simp) hcol, ?_, ?_⟩
    · rw [Page.passed_press_char a hcol, hpassed]
    · intro r c hc
      rw [Page.press, Page.advance_cell]
      change (if r = p.row ∧ c = p.col then a else p.cell r c) = _
      -- the carriage is at the cell of the new character, and at no other one
      have hat : r = p.row ∧ c = p.col ↔ r*cols+c = text.length := by
        rw [← hpassed, Page.passed]
        constructor
        · rintro ⟨rfl, rfl⟩
          rfl
        · intro he
          have hr : r = p.row := by
            have hdiv := congrArg (· / cols) he
            simpa [Nat.mul_comm _ cols, Nat.mul_add_div hcols, Nat.div_eq_of_lt hc,
              Nat.div_eq_of_lt hcol] using hdiv
          subst hr
          exact ⟨rfl, Nat.add_left_cancel he⟩
      rw [hcell r c hc]
      simp only [hat, List.getD_eq_getElem?_getD]
      split_ifs with hlen
      · rw [hlen, List.getElem?_concat_length, Option.getD_some]
      · rcases Nat.lt_or_gt_of_ne hlen with hlt | hgt
        · rw [List.getElem?_append_left hlt]
        · rw [List.getElem?_eq_none (Nat.le_of_lt hgt), List.getElem?_eq_none]
          rw [List.length_append]
          exact hgt

end Typewriter
