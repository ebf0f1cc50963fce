import Rephrase.Diff.Step

/-!
Searches for a short edit script. The lines that both sides share at their ends are kept; what is
between is split where a search from the front and one from the back meet, and each part is
searched on its own.
-/

namespace Rephrase.Diff

structure Window where
  old : Stretch
  new : Stretch
  deriving DecidableEq, Repr

namespace Window

def size (w : Window) : Nat := w.old.length + w.new.length

def before (w : Window) (x y : Nat) : Window :=
  ⟨⟨w.old.start, x⟩, ⟨w.new.start, y⟩⟩

def after (w : Window) (x y : Nat) : Window :=
  ⟨⟨w.old.start + x, w.old.length - x⟩, ⟨w.new.start + y, w.new.length - y⟩⟩

end Window

/-- How far a search has come after `d` changes: for the diagonals `d`, `d - 2`, up to `-d`, the
number of old lines passed. A diagonal is the number of old lines passed less that of new lines. -/
abbrev Front := Array Nat

/-- The place of a diagonal in a front of `d` changes, if the front has it. -/
def frontIndex? (d : Nat) (diagonal : Int) : Option Nat :=
  if diagonal.natAbs ≤ d then some ((d - diagonal).toNat / 2) else none

/-- Where the search continues with one more change. -/
def starts (d : Nat) (front : Front) : Front :=
  if d = 0 then #[0]
  else
    Array.ofFn fun i : Fin (d + 1) =>
      let lower := front.getD i.val 0
      let upper := front.getD (i.val - 1) 0
      -- Whichever neighbour is further: a new line leads from the upper one and leaves the count of
      -- old lines as it is, an old line leads from the lower one.
      if i.val = d then upper
      else if i.val ≠ 0 && lower < upper then upper
      else lower + 1

def newPassed (d i x : Nat) : Int :=
  (x : Int) - ((d : Int) - 2 * i)

/-- A front after the lines that are the same have been passed on each diagonal; `matching x y` is
how many these are. -/
def advance (d : Nat) (matching : Nat → Nat → Nat) (n m : Nat) (front : Front) : Front :=
  front.mapIdx fun i x =>
    let y := newPassed d i x
    -- Some diagonals of a front lie outside of the window.
    if x < n && 0 ≤ y && y < m then x + matching x y.toNat else x

/-- The first diagonal, from the highest on, at which a front of `d` changes has met the opposite
front of `e` changes. -/
def meeting? (d e n : Nat) (delta : Int) (front opposite : Front) : Option Nat :=
  (List.range front.size).find? fun i =>
    let diagonal := (d : Int) - 2 * i
    match frontIndex? e (delta - diagonal) with
    -- They have met if together they have passed all old lines.
    | some j => n ≤ front.getD i 0 + opposite.getD j 0
    | none => false

/-- One step of `middle?`, with `d` changes from either end. -/
def middleFrom (old new : Array String) (w : Window) (d : Nat) (forward backward : Front) :
    Nat → Option (Nat × Nat)
  | 0 => none
  | tries + 1 =>
    let n := w.old.length
    let m := w.new.length
    let delta : Int := (n : Int) - m
    let fromFront := starts d forward
    let forward := advance d (fun x y =>
      commonPrefix old new (w.old.start + x) (w.new.start + y) (min (n - x) (m - y))) n m fromFront
    -- The parity of the difference in length says which of the two searches can notice that they
    -- have met.
    let odd := delta % 2 ≠ 0
    match if odd && 0 < d then meeting? d (d - 1) n delta forward backward else none with
    | some i => some (fromFront.getD i 0, (newPassed d i (fromFront.getD i 0)).toNat)
    | none =>
      let backward := advance d (fun x y =>
        commonSuffix old new (w.old.start + n - x) (w.new.start + m - y) (min (n - x) (m - y))) n m
        (starts d backward)
      match if odd then none else meeting? d d n delta backward forward with
      | some i =>
        let x := backward.getD i 0
        some (n - x, (m - newPassed d i x).toNat)
      | none => middleFrom old new w (d + 1) forward backward tries

/-- A place in a window that a shortest script leads through: how many lines of each side are in
front of it. -/
def middle? (old new : Array String) (w : Window) : Option (Nat × Nat) :=
  middleFrom old new w 0 #[] #[] ((w.old.length + w.new.length + 1) / 2 + 1)

/-- The steps for a window whose sides share no line at either end. -/
def between (old new : Array String) (w : Window)
    (inner : (v : Window) → v.size < w.size → List Step) : List Step :=
  if w.old.length = 0 && w.new.length = 0 then []
  else if w.new.length = 0 then [.remove w.old.start w.old.length w.new.start]
  else if w.old.length = 0 then [.add w.old.start w.new.start w.new.length]
  else
    let apart := [.remove w.old.start w.old.length w.new.start,
      .add w.old.start w.new.start w.new.length]
    match middle? old new w with
    | none => apart
    | some (x, y) =>
      if h : (w.before x y).size < w.size ∧ (w.after x y).size < w.size then
        inner (w.before x y) h.1 ++ inner (w.after x y) h.2
      -- A split at an end of the window would come back to the window itself.
      else apart

def scriptOf (old new : Array String) (w : Window) : List Step :=
  let front := commonPrefix old new w.old.start w.new.start (min w.old.length w.new.length)
  let rest := w.after front front
  let back := commonSuffix old new rest.old.stop rest.new.stop
    (min rest.old.length rest.new.length)
  let core := rest.before (rest.old.length - back) (rest.new.length - back)
  let keepFront := if front = 0 then [] else [.keep w.old.start w.new.start front]
  let keepBack := if back = 0 then [] else [.keep core.old.stop core.new.stop back]
  keepFront ++ between old new core (fun v _ => scriptOf old new v) ++ keepBack
termination_by w.size
decreasing_by
  have h : core.size ≤ w.size := by
    simp only [core, rest, Window.before, Window.after, Window.size]
    omega
  omega

def script (old new : Array String) : List Step :=
  scriptOf old new ⟨⟨0, old.size⟩, ⟨0, new.size⟩⟩

end Rephrase.Diff
