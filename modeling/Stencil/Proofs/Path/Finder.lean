import Stencil.Proofs.Machine
import Stencil.Proofs.Path.Cursor
import Stencil.Proofs.Path.Segments

/-!
# Looking up by offsets

A value can also be looked up by a machine that moves a cursor along the path, from
each name, separator or index to what follows it, and reads no further than the value
admits.  Its cursor moves on with every step and never leaves the path, and it comes to
what the look-up comes to.
-/

namespace Stencil

/-!
# The machine
-/

inductive Finder where
  | name (offset : Nat) (d : Dict Value)
  | separator (offset : Nat) (label : Bytes) (v : Value)
  | index (offset : Nat) (label : Bytes) (items : List Value)

namespace Finder

def offset : Finder → Nat
  | name offset _ => offset
  | separator offset _ _ => offset
  | index offset _ _ => offset

def fail (path : Path) (stop offset : Nat) (fault : PathFault) :
    Move Finder (Except PathError Value) :=
  .halt stop (.error (.noticed path offset fault))

def enter (path : Path) (offset : Nat) (label : Bytes) (v : Value) (b : UInt8) :
    Move Finder (Except PathError Value) :=
  if b = Byte.dot then
    match v with
    | .dict d => .onward (.name offset d)
    | _ => fail path offset offset (.notADict .reading label)
  else if b = Byte.openBracket then
    match v with
    | .array items => .onward (.index offset label items)
    | _ => fail path offset offset (.notAnArray .reading label)
  else fail path offset offset .strayByte

def step (path : Path) : Finder → Option (Move Finder (Except PathError Value))
  | name offset d =>
    if path.isEmpty then some (fail path offset offset .emptyPath)
    else do
      match ← Path.Cursor.name path offset with
      | .error fault => some (fail path offset offset fault)
      | .ok bytes =>
        let stop := offset + bytes.length
        match d.get? bytes with
        | some v => some (.onward (.separator stop bytes v))
        | none => some (fail path stop offset (.notFound bytes))
  | separator offset label v => do
    match ← Path.Cursor.separator path offset with
    | some b => some (enter path (offset + 1) label v b)
    | none => some (.halt offset (.ok v))
  | index offset label items => do
    match ← Path.Cursor.index path offset with
    | (stop, .error fault) => some (fail path stop stop fault)
    | (stop, .ok i) =>
      match items[i]? with
      | some v => some (.onward (.separator stop label v))
      | none => some (fail path stop stop .indexOutOfBounds)

end Finder

def finder (path : Path) : Machine Finder (Except PathError Value) where
  step := Finder.step path
  position := Finder.offset

namespace Path

/-!
# Following what has been read
-/

def findOn (path : Path) (label : Bytes) (v : Value) (r : Reading) : Except PathError Value :=
  path.find label v r.segments r.ending

theorem findOn_name_unfit (path : Path) (label : Bytes) {v : Value} (h : ∀ d, v ≠ .dict d)
    (start : Nat) (bytes : Bytes) :
    path.findOn label v (readFrom (.name start bytes) start bytes) =
      .error (.noticed path start (.notADict .reading label)) := by
  rcases readFrom_name_cases start bytes with ⟨fault, _, hread⟩ | ⟨name, rest, _, _, _, hread⟩
  · rw [hread]
    cases v with
    | dict d =>
        exact absurd rfl (h d)
    | _ =>
        rfl
  · rw [hread]
    cases v with
    | dict d =>
        exact absurd rfl (h d)
    | _ =>
        rfl

theorem findOn_index_unfit (path : Path) (label : Bytes) {v : Value}
    (h : ∀ items, v ≠ .array items) (start : Nat) (bytes : Bytes) :
    path.findOn label v (readFrom (.index start bytes) start bytes) =
      .error (.noticed path start (.notAnArray .reading label)) := by
  rcases readFrom_index_cases start bytes with ⟨n, fault, _, hread⟩
    | ⟨token, rest, _, _, hread⟩
  · rw [hread]
    cases v with
    | array items =>
        exact absurd rfl (h items)
    | _ =>
        rfl
  · rw [hread]
    cases v with
    | array items =>
        exact absurd rfl (h items)
    | _ =>
        rfl

end Path

namespace Finder

/-!
# Every look-up stays in range
-/

/-- The cursor has passed the front of the path, and following what is read behind it
comes to what the look-up comes to. -/
inductive Within (ns : Dict Value) (path : Path) : Finder → Prop where
  | name {rest label : Bytes} {offset : Nat} {d : Dict Value} :
      path ≠ [] → Bytes.Remains path offset rest →
      path.findOn label (.dict d) (Path.readFrom (.name offset rest) offset rest) =
        lookup ns path →
      Within ns path (.name offset d)
  | separator {rest label : Bytes} {offset : Nat} {v : Value} :
      Bytes.Remains path offset rest →
      path.findOn label v (Path.readFrom .separator offset rest) = lookup ns path →
      Within ns path (.separator offset label v)
  | index {rest label : Bytes} {offset : Nat} {items : List Value} :
      Bytes.Remains path offset rest →
      path.findOn label (.array items) (Path.readFrom (.index offset rest) offset rest) =
        lookup ns path →
      Within ns path (.index offset label items)

theorem Within.offset_le {ns : Dict Value} {path : Path} {s : Finder} (h : Within ns path s) :
    s.offset ≤ path.length := by
  cases h with
  | name _ hrest _ =>
      exact hrest.offset_le
  | separator hrest _ =>
      exact hrest.offset_le
  | index hrest _ =>
      exact hrest.offset_le

variable {ns : Dict Value} {path : Path} {rest label : Bytes} {offset : Nat}

theorem fail_advances {start stop noticed : Nat} {fault : PathFault} (hstart : start ≤ stop)
    (hstop : stop ≤ path.length) (h : .error (.noticed path noticed fault) = lookup ns path) :
    (fail path stop noticed fault).Advances Finder.offset path.length (Within ns path)
      (lookup ns path) start := by
  rw [fail, h]
  exact .halt hstart hstop

theorem enter_advances {v : Value} {b : UInt8} (hrest : Bytes.Remains path offset (b :: rest))
    (hfind :
      path.findOn label v (Path.readFrom .separator offset (b :: rest)) = lookup ns path) :
    (enter path (offset + 1) label v b).Advances Finder.offset path.length (Within ns path)
      (lookup ns path) offset := by
  have hle := hrest.next.offset_le
  have hne : path ≠ [] := List.ne_nil_of_length_pos (Nat.zero_lt_of_lt hle)
  unfold enter
  rw [Path.readFrom] at hfind
  by_cases hdot : b = Byte.dot
  · rw [if_pos hdot] at hfind ⊢
    by_cases hdict : ∃ d, v = .dict d
    · rcases hdict with ⟨d, rfl⟩
      exact .onward (.name hne hrest.next hfind) (Nat.lt_succ_self _)
    · rw [not_exists] at hdict
      rw [Path.findOn_name_unfit path label hdict] at hfind
      cases v with
      | dict d =>
          exact absurd rfl (hdict d)
      | _ =>
          exact fail_advances (Nat.le_succ _) hle hfind
  · rw [if_neg hdot] at hfind ⊢
    by_cases hbracket : b = Byte.openBracket
    · rw [if_pos hbracket] at hfind ⊢
      by_cases harray : ∃ items, v = .array items
      · rcases harray with ⟨items, rfl⟩
        exact .onward (.index hrest.next hfind) (Nat.lt_succ_self _)
      · rw [not_exists] at harray
        rw [Path.findOn_index_unfit path label harray] at hfind
        cases v with
        | array items =>
            exact absurd rfl (harray items)
        | _ =>
            exact fail_advances (Nat.le_succ _) hle hfind
    · rw [if_neg hbracket] at hfind ⊢
      exact fail_advances (Nat.le_succ _) hle hfind

theorem name_advances {d : Dict Value} (hne : path ≠ [])
    (hrest : Bytes.Remains path offset rest)
    (hfind : path.findOn label (.dict d) (Path.readFrom (.name offset rest) offset rest) =
      lookup ns path) :
    ∃ move, step path (.name offset d) = some move ∧
      move.Advances Finder.offset path.length (Within ns path) (lookup ns path) offset := by
  have hempty : ¬ path.isEmpty = true := by simpa using hne
  rw [step, if_neg hempty]
  rcases Path.Cursor.name_cases hrest with
    ⟨fault, hname, hread⟩ | ⟨bytes, more, rfl, hbytes, _, hname, hread⟩
  · rw [hread] at hfind
    rw [hname]
    exact ⟨_, rfl, fail_advances (Nat.le_refl _) hrest.offset_le hfind⟩
  · have hlt : offset < offset + bytes.length :=
      Nat.lt_add_of_pos_right (List.length_pos_iff.mpr hbytes)
    rw [hread] at hfind
    simp only [Path.findOn, Path.Reading.prepend, Path.find] at hfind
    simp only [hname, Option.bind_eq_bind, Option.bind_some]
    cases hget : d.get? bytes with
    | none =>
        rw [hget] at hfind
        exact ⟨_, rfl, fail_advances (Nat.le_of_lt hlt) hrest.behind.offset_le hfind⟩
    | some v =>
        rw [hget] at hfind
        exact ⟨_, rfl, .onward (.separator hrest.behind hfind) hlt⟩

theorem separator_advances {v : Value} (hrest : Bytes.Remains path offset rest)
    (hfind : path.findOn label v (Path.readFrom .separator offset rest) = lookup ns path) :
    ∃ move, step path (.separator offset label v) = some move ∧
      move.Advances Finder.offset path.length (Within ns path) (lookup ns path) offset := by
  rw [step, Path.Cursor.separator_eq hrest]
  cases rest with
  | nil =>
      refine ⟨.halt offset (.ok v), rfl, ?_⟩
      rw [← hfind]
      exact .halt (Nat.le_refl _) hrest.offset_le
  | cons b rest =>
      exact ⟨_, rfl, enter_advances hrest hfind⟩

theorem index_advances {items : List Value} (hrest : Bytes.Remains path offset rest)
    (hfind :
      path.findOn label (.array items) (Path.readFrom (.index offset rest) offset rest) =
      lookup ns path) :
    ∃ move, step path (.index offset label items) = some move ∧
      move.Advances Finder.offset path.length (Within ns path) (lookup ns path) offset := by
  rw [step]
  rcases Path.Cursor.index_cases hrest with
    ⟨n, fault, hn, hindex, hread⟩ | ⟨token, more, i, rfl, _, hindex, hread⟩
  · have hlength := hrest.length_eq
    rw [hread] at hfind
    rw [hindex]
    exact ⟨_, rfl, fail_advances (Nat.le_add_right _ _) (by omega) hfind⟩
  · have hmore := hrest.behind.next
    have hlt : offset < offset + token.length + 1 := by omega
    rw [hread] at hfind
    simp only [Path.findOn, Path.Reading.prepend, Path.find] at hfind
    simp only [hindex, Option.bind_eq_bind, Option.bind_some]
    cases hitem : items[i]? with
    | none =>
        rw [hitem] at hfind
        exact ⟨_, rfl, fail_advances (Nat.le_of_lt hlt) hmore.offset_le hfind⟩
    | some v =>
        rw [hitem] at hfind
        exact ⟨_, rfl, .onward (.separator hmore hfind) hlt⟩

theorem step_advances (s : Finder) (h : Within ns path s) :
    (finder path).Advances path.length (Within ns path) (lookup ns path) s := by
  cases h with
  | name hne hrest hfind =>
      exact name_advances hne hrest hfind
  | separator hrest hfind =>
      exact separator_advances hrest hfind
  | index hrest hfind =>
      exact index_advances hrest hfind

theorem runsWithin (ns : Dict Value) (path : Path) :
    (finder path).RunsWithin path.length (.name 0 ns) (lookup ns path) := by
  cases path with
  | nil =>
      -- the machine halts at once
      apply Machine.runsWithin (· = Finder.name 0 ns)
      · rintro s rfl
        exact Nat.le_refl _
      · rintro s rfl
        exact ⟨_, rfl, .halt (Nat.le_refl _) (Nat.le_refl _)⟩
      · rfl
  | cons b rest =>
      apply Machine.runsWithin (Within ns (b :: rest))
      · intro s h
        exact h.offset_le
      · exact step_advances
      · have hfind : Path.findOn (b :: rest) [] (.dict ns)
            (Path.readFrom (.name 0 (b :: rest)) 0 (b :: rest)) = lookup ns (b :: rest) := rfl
        exact .name (List.cons_ne_nil b rest) (Bytes.remains_start _) hfind

end Finder
end Stencil
