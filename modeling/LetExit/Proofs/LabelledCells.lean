import LetExit.Assembly.Frame

/-!
# Labelled cells

A frame knows how many cells are on the stack and a number for each name.  What it stands for
is a stack of cells that carry names as labels: a push puts a cell without label on top, a
declaration moves a label to the top cell from wherever it was, and a pop takes away a cell
without label.  `Cells` is that stack, with nothing but the cells themselves.

A frame and a stack that are used side by side stay in agreement (`Frame.Follows`).  A slot
counts the cells from the bottom up, so it stays as it is when cells come and go above it; the
distance from the top is computed, and comes out as the number of cells above the label.
-/

set_option autoImplicit false

namespace LetExit

namespace Frame

/-- What a frame can be asked for. -/
inductive Request where
  | push (operand : Operand)
  | pop (register : String)
  | declare (name : String)
  | resolve (name : String)
deriving DecidableEq, Repr

/-- The instructions that a request emits, and the frame after it. -/
def serve (frame : Frame) : Request → List Instruction × Frame
  | .push operand => ([(frame.push operand).1], (frame.push operand).2)
  | .pop register => ([(frame.pop register).1], (frame.pop register).2)
  | .declare name => ([], frame.declare name)
  | .resolve _ => ([], frame)

/-- The instructions that requests emit one after the other, and the frame after them. -/
def run (frame : Frame) : List Request → List Instruction × Frame
  | [] => ([], frame)
  | request :: later =>
    let (code, after) := frame.serve request
    let (more, last) := after.run later
    (code ++ more, last)

end Frame

/-- A stack of cells, the top one first.  A cell is the list of its labels. -/
abbrev Cells := List (List String)

namespace Cells

/-- The stack after a request, if the request is allowed: there has to be a cell to declare a name
for, and only a cell without label may be popped. -/
def serve? : Cells → Frame.Request → Option Cells
  | cells, .push _ => some ([] :: cells)
  | [] :: below, .pop _ => some below
  | _, .pop _ => none
  | top :: below, .declare name =>
    -- the label leaves the cell that has it
    some ((name :: top.filter (· ≠ name)) :: below.map (List.filter (· ≠ name)))
  | [], .declare _ => none
  | cells, .resolve _ => some cells

/-- The stack after requests that are made one after the other, if all of them are allowed. -/
def run? (cells : Cells) : List Frame.Request → Option Cells
  | [] => some cells
  | request :: later => (cells.serve? request).bind fun after => run? after later

/-- The cell with so many cells above it carries a label. -/
def Carries (cells : Cells) (name : String) (above : Nat) : Prop :=
  ∃ labels, cells[above]? = some labels ∧ name ∈ labels

variable {cells below : Cells} {top : List String} {name : String} {above : Nat}

/-- The labels of the top cell have no cell above them. -/
theorem carries_cons_zero : Carries (top :: below) name 0 ↔ name ∈ top := by
  simp [Carries]

/-- Below the top, a label has one cell more above it. -/
theorem carries_cons_succ :
    Carries (top :: below) name (above + 1) ↔ below.Carries name above := by
  simp [Carries]

/-- A cell without label on top changes the height of no label. -/
theorem exists_carries_cons_nil {slot : Int} :
    (∃ above, Carries ([] :: cells) name above ∧ slot = List.length ([] :: cells) - above) ↔
      ∃ above, cells.Carries name above ∧ slot = cells.length - above := by
  constructor
  · rintro ⟨above, hcarries, rfl⟩
    cases above with
    | zero => simp [carries_cons_zero] at hcarries
    | succ above =>
      refine ⟨above, carries_cons_succ.mp hcarries, ?_⟩
      rw [List.length_cons]
      omega
  · rintro ⟨above, hcarries, rfl⟩
    refine ⟨above + 1, carries_cons_succ.mpr hcarries, ?_⟩
    rw [List.length_cons]
    omega

/-- After a label has left all cells, these carry their other labels. -/
theorem carries_map_filter_iff {other : String} :
    Carries (cells.map (List.filter (· ≠ other))) name above ↔
      name ≠ other ∧ cells.Carries name above := by
  simp only [Carries, List.getElem?_map, Option.map_eq_some_iff]
  constructor
  · rintro ⟨_, ⟨labels, hlabels, rfl⟩, hname⟩
    rw [List.mem_filter, decide_eq_true_eq] at hname
    exact ⟨hname.2, labels, hlabels, hname.1⟩
  · rintro ⟨hne, labels, hlabels, hname⟩
    refine ⟨_, ⟨labels, hlabels, rfl⟩, ?_⟩
    rw [List.mem_filter, decide_eq_true_eq]
    exact ⟨hname, hne⟩

/-- A sequence of requests is allowed only if its beginnings are. -/
theorem exists_run?_of_append {earlier later : List Frame.Request} {last : Cells}
    (h : cells.run? (earlier ++ later) = some last) :
    ∃ middle, cells.run? earlier = some middle ∧ run? middle later = some last := by
  induction earlier generalizing cells with
  | nil => exact ⟨cells, rfl, h⟩
  | cons request earlier ih =>
    rw [List.cons_append, run?, Option.bind_eq_some_iff] at h
    obtain ⟨after, hserve, hlater⟩ := h
    obtain ⟨middle, hearlier, hlast⟩ := ih hlater
    refine ⟨middle, ?_, hlast⟩
    rw [run?, hserve]
    exact hearlier

end Cells

/-- Whether an instruction pushes a value. -/
def Instruction.isPush : Instruction → Bool
  | .push _ => true
  | _ => false

/-- Whether an instruction pops a value. -/
def Instruction.isPop : Instruction → Bool
  | .pop _ => true
  | _ => false

/-- How many more pushes than pops there are among instructions. -/
def pushesMinusPops (code : List Instruction) : Int :=
  code.countP Instruction.isPush - code.countP Instruction.isPop

/-- Pushes and pops are counted along the code. -/
theorem pushesMinusPops_append (code later : List Instruction) :
    pushesMinusPops (code ++ later) = pushesMinusPops code + pushesMinusPops later := by
  simp only [pushesMinusPops, List.countP_append]
  omega

namespace Frame

/-- The frame has the height of the stack as its depth, and as the slot of a name the height of the
cell that carries it. -/
structure Follows (frame : Frame) (cells : Cells) : Prop where
  depth : frame.depth = cells.length
  slot_iff : ∀ (name : String) (slot : Int), frame.slots[name]? = some slot ↔
    ∃ above, cells.Carries name above ∧ slot = cells.length - above

/-- The frame without names follows the stack without cells. -/
theorem follows_empty : empty.Follows [] where
  depth := rfl
  slot_iff name slot := by simp [empty, Cells.Carries]

namespace Follows

variable {frame : Frame} {cells below : Cells} {top : List String}

/-- A pushed cell has no label. -/
theorem push (h : frame.Follows cells) (operand : Operand) :
    (frame.push operand).2.Follows ([] :: cells) where
  depth := by simp [Frame.push, h.depth]
  slot_iff name slot := (h.slot_iff name slot).trans Cells.exists_carries_cons_nil.symm

/-- A cell without label can be popped without loss of a name. -/
theorem pop (h : frame.Follows ([] :: below)) (register : String) :
    (frame.pop register).2.Follows below where
  depth := by simp [Frame.pop, h.depth]
  slot_iff name slot := (h.slot_iff name slot).trans Cells.exists_carries_cons_nil

/-- A label moves to the top cell, whichever cell had it. -/
theorem declare (h : frame.Follows (top :: below)) (name : String) :
    (frame.declare name).Follows
      ((name :: top.filter (· ≠ name)) :: below.map (List.filter (· ≠ name))) where
  depth := by simp [Frame.declare, h.depth]
  slot_iff other slot := by
    have hdepth : frame.depth = below.length + 1 := by simp [h.depth]
    simp only [Frame.declare, List.length_cons, List.length_map]
    rw [Std.ExtTreeMap.getElem?_insert]
    by_cases hother : other = name
    · -- the label is on the top cell and nowhere else
      subst hother
      rw [if_pos Std.compare_self, Option.some.injEq]
      constructor
      · rintro rfl
        exact ⟨0, Cells.carries_cons_zero.mpr List.mem_cons_self, by omega⟩
      · rintro ⟨above, hcarries, rfl⟩
        cases above with
        | zero => omega
        | succ above =>
          rw [Cells.carries_cons_succ, Cells.carries_map_filter_iff] at hcarries
          exact absurd rfl hcarries.1
    · have hne : compare name other ≠ .eq := fun heq =>
        hother (Std.compare_eq_iff_eq.mp heq).symm
      rw [if_neg hne, h.slot_iff]
      -- every other label stays on its cell
      have hsame (above : Nat) : Cells.Carries (top :: below) other above ↔
          Cells.Carries ((name :: top.filter (· ≠ name)) :: below.map (List.filter (· ≠ name)))
            other above := by
        cases above with
        | zero => simp [Cells.carries_cons_zero, hother]
        | succ above =>
          rw [Cells.carries_cons_succ, Cells.carries_cons_succ, Cells.carries_map_filter_iff]
          exact (and_iff_right hother).symm
      simp only [hsame, List.length_cons]

/-- What a frame and a stack do at a request keeps them in agreement, and the depth changes by the
pushes and pops that are emitted. -/
theorem serve {after : Cells} (h : frame.Follows cells) {request : Request}
    (hrequest : cells.serve? request = some after) :
    (frame.serve request).2.Follows after ∧
      (frame.serve request).2.depth = frame.depth + pushesMinusPops (frame.serve request).1 := by
  cases request with
  | push operand =>
    obtain rfl := Option.some.inj hrequest
    exact ⟨h.push operand, rfl⟩
  | pop register =>
    rcases cells with _ | ⟨_ | ⟨label, labels⟩, below⟩
    · cases hrequest
    · obtain rfl := Option.some.inj hrequest
      exact ⟨h.pop register, rfl⟩
    · cases hrequest
  | declare name =>
    cases cells with
    | nil => cases hrequest
    | cons top below =>
      obtain rfl := Option.some.inj hrequest
      exact ⟨h.declare name, (Int.add_zero _).symm⟩
  | resolve name =>
    have hcells : cells = after := by simpa [Cells.serve?] using hrequest
    rw [← hcells]
    exact ⟨h, (Int.add_zero _).symm⟩

/-- A frame follows the stack through requests that are allowed, and its depth counts the pushes
less the pops. -/
theorem run {last : Cells} (h : frame.Follows cells) {requests : List Request}
    (hrequests : cells.run? requests = some last) :
    (frame.run requests).2.Follows last ∧
      (frame.run requests).2.depth = frame.depth + pushesMinusPops (frame.run requests).1 := by
  induction requests generalizing frame cells with
  | nil =>
    obtain rfl := Option.some.inj hrequests
    exact ⟨h, (Int.add_zero _).symm⟩
  | cons request later ih =>
    rw [Cells.run?, Option.bind_eq_some_iff] at hrequests
    obtain ⟨after, hserve, hlater⟩ := hrequests
    obtain ⟨hafter, hdepth⟩ := h.serve hserve
    obtain ⟨hlast, hlastDepth⟩ := ih hafter hlater
    refine ⟨hlast, ?_⟩
    rw [Frame.run, pushesMinusPops_append, ← Int.add_assoc, ← hdepth]
    exact hlastDepth

/-- The distance of a name is eight bytes for each cell above the one that carries it. -/
theorem resolve?_eq_some_iff (h : frame.Follows cells) {name : String} {offset : Int} :
    frame.resolve? name = some offset ↔
      ∃ above : Nat, cells.Carries name above ∧ offset = 8 * above := by
  simp only [Frame.resolve?, Option.map_eq_some_iff, h.slot_iff, h.depth, cellSize]
  constructor
  · rintro ⟨_, ⟨above, hcarries, rfl⟩, rfl⟩
    exact ⟨above, hcarries, by omega⟩
  · rintro ⟨above, hcarries, rfl⟩
    exact ⟨_, ⟨above, hcarries, rfl⟩, by omega⟩

end Follows

/-- **A frame stands for a stack of labelled cells.**  Let requests be made of a new frame, beside a
stack that has no cell at first, so that a name is declared only when there is a cell and only a
cell without label is popped.  At any time the depth of the frame is the number of cells, and the
number of pushes emitted so far less that of pops.  A name resolves exactly if some cell carries it
as a label, and then to eight times the number of cells above that cell. -/
theorem follows_labelled_cells {requests earlier : List Request} {last : Cells}
    (h : Cells.run? [] requests = some last) (hearlier : earlier <+: requests) :
    ∃ cells, Cells.run? [] earlier = some cells ∧
      (empty.run earlier).2.depth = cells.length ∧
      (empty.run earlier).2.depth = (empty.run earlier).1.countP Instruction.isPush -
        (empty.run earlier).1.countP Instruction.isPop ∧
      ∀ name,
        (((empty.run earlier).2.resolve? name).isSome = true ↔ ∃ labels ∈ cells, name ∈ labels) ∧
        ∀ offset, (empty.run earlier).2.resolve? name = some offset ↔
          ∃ (above : Nat) (labels : List String),
            cells[above]? = some labels ∧ name ∈ labels ∧ offset = 8 * above := by
  obtain ⟨later, rfl⟩ := hearlier
  obtain ⟨cells, hcells, -⟩ := Cells.exists_run?_of_append h
  obtain ⟨hfollows, hdepth⟩ := follows_empty.run hcells
  have hresolve (name : String) (offset : Int) :
      (empty.run earlier).2.resolve? name = some offset ↔
        ∃ (above : Nat) (labels : List String),
          cells[above]? = some labels ∧ name ∈ labels ∧ offset = 8 * above := by
    rw [hfollows.resolve?_eq_some_iff]
    constructor
    · rintro ⟨above, ⟨labels, hlabels, hname⟩, hoffset⟩
      exact ⟨above, labels, hlabels, hname, hoffset⟩
    · rintro ⟨above, labels, hlabels, hname, hoffset⟩
      exact ⟨above, ⟨labels, hlabels, hname⟩, hoffset⟩
  refine ⟨cells, hcells, hfollows.depth, ?_, fun name => ⟨?_, hresolve name⟩⟩
  · rw [hdepth]
    exact Int.zero_add _
  · rw [Option.isSome_iff_exists]
    simp only [hresolve]
    constructor
    · rintro ⟨offset, above, labels, hlabels, hname, -⟩
      exact ⟨labels, List.mem_of_getElem? hlabels, hname⟩
    · rintro ⟨labels, hlabels, hname⟩
      obtain ⟨above, habove⟩ := List.mem_iff_getElem?.mp hlabels
      exact ⟨_, above, labels, habove, hname, rfl⟩

/-- Two labels share a cell after one of them has moved there, and both are one cell further from
the top when a value is pushed. -/
theorem follows_labelled_cells_shared :
    let requests : List Request := [.push (.register "rax"), .declare "a",
      .push (.register "rax"), .declare "b", .declare "a", .push (.cell 0), .resolve "a",
      .pop "rdi"]
    Cells.run? [] requests = some [["a", "b"], []] ∧
      ∃ cells, Cells.run? [] (requests.take 7) = some cells ∧ cells = [[], ["a", "b"], []] ∧
        (empty.run (requests.take 7)).2.depth = 3 ∧
        (empty.run (requests.take 7)).2.resolve? "a" = some 8 ∧
        (empty.run (requests.take 7)).2.resolve? "b" = some 8 := by
  intro requests
  have hallowed : Cells.run? [] requests = some [["a", "b"], []] := by decide
  obtain ⟨cells, hcells, hdepth, -, hnames⟩ :=
    follows_labelled_cells hallowed (List.take_prefix 7 requests)
  have hmiddle : Cells.run? [] (requests.take 7) = some [[], ["a", "b"], []] := by decide
  obtain rfl := Option.some.inj (hcells.symm.trans hmiddle)
  refine ⟨hallowed, _, hcells, rfl, hdepth, ?_, ?_⟩
  · exact ((hnames "a").2 8).mpr ⟨1, ["a", "b"], rfl, by decide, rfl⟩
  · exact ((hnames "b").2 8).mpr ⟨1, ["a", "b"], rfl, by decide, rfl⟩

end Frame

end LetExit
