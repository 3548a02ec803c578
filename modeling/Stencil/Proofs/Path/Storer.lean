import Stencil.Proofs.Machine
import Stencil.Proofs.Path.Cursor
import Stencil.Proofs.Path.Failure
import Stencil.Proofs.Path.Segments

/-!
# Storing by offsets

A value can also be stored by a machine that moves a cursor along the path.  The machine
holds the place that it has come to, together with what the namespace becomes when another
value is put there.  It creates what is missing when it sees the separator that calls for
it.  Its cursor moves on with every step and never leaves the path, and it comes to what
the assignment comes to.
-/

namespace Stencil

/-!
# The machine
-/

inductive Storer where
  | name (offset : Nat) (d : Dict Value) (back : Value → Dict Value)
  | behindName (offset : Nat) (bytes : Bytes) (d : Dict Value) (back : Value → Dict Value)
  | index (offset : Nat) (label : Bytes) (v : Value) (back : Value → Dict Value)
  | behindIndex (offset : Nat) (label : Bytes) (items : List Value) (i : Nat)
      (back : Value → Dict Value)

namespace Storer

abbrev Outcome := Dict Value × Except Unassigned Unit

def offset : Storer → Nat
  | name offset _ _ => offset
  | behindName offset _ _ _ => offset
  | index offset _ _ _ => offset
  | behindIndex offset _ _ _ _ => offset

def fresh? (b : UInt8) : Option Value :=
  if b = Byte.dot then some (.dict .empty)
  else if b = Byte.openBracket then some (.array [])
  else none

def fail (path : Path) (v : Value) (stop : Nat) (left : Dict Value) (fault : PathFault) :
    Move Storer Outcome :=
  .halt stop (left, .error ⟨.noticed path stop fault, v⟩)

def enter (path : Path) (v : Value) (offset : Nat) (label : Bytes) (next : Value) (b : UInt8)
    (back : Value → Dict Value) : Move Storer Outcome :=
  if b = Byte.dot then
    match next with
    | .dict d => .onward (.name offset d back)
    | _ => fail path v offset (back next) (.notADict .writing label)
  else if b = Byte.openBracket then .onward (.index offset label next back)
  else fail path v offset (back next) .strayByte

def enterEntry (path : Path) (v : Value) (offset : Nat) (bytes : Bytes) (d : Dict Value)
    (b : UInt8) (back : Value → Dict Value) : Move Storer Outcome :=
  match fresh? b with
  | none => .halt offset (back (.dict (d.replace bytes v)), .ok ())
  | some fresh =>
    let filled := d.ensure bytes fresh
    enter path v offset bytes ((filled.get? bytes).getD fresh) b fun w =>
      back (.dict (filled.update bytes w))

def enterItem (path : Path) (v : Value) (offset : Nat) (label : Bytes) (items : List Value)
    (i : Nat) (b : UInt8) (back : Value → Dict Value)
    : Move Storer Outcome :=
  match items[i]? with
  | some next => enter path v offset label next b fun w => back (.array (items.set i w))
  | none =>
    match fresh? b with
    | none => fail path v offset (back (.array items)) .strayByte
    | some fresh =>
      match Items.set items i fresh with
      | (left, .error _) => fail path v offset (back (.array left)) .noRoom
      | (filled, .ok ()) =>
        enter path v offset label fresh b fun w => back (.array (filled.set i w))

def step (path : Path) (v : Value) : Storer → Option (Move Storer Outcome)
  | name offset d back =>
    if path.isEmpty then some (fail path v offset (back (.dict d)) .emptyPath)
    else do
      match ← Path.Cursor.name path offset with
      | .error fault => some (fail path v offset (back (.dict d)) fault)
      | .ok bytes => some (.onward (.behindName (offset + bytes.length) bytes d back))
  | behindName offset bytes d back => do
    match ← Path.Cursor.separator path offset with
    | some b => some (enterEntry path v (offset + 1) bytes d b back)
    | none => some (.halt offset (back (.dict (d.replace bytes v)), .ok ()))
  | index offset label next back => do
    match ← Path.Cursor.index path offset with
    | (stop, .error fault) => some (fail path v stop (back next) fault)
    | (stop, .ok i) =>
      match next with
      | .array items => some (.onward (.behindIndex stop label items i back))
      | _ => some (fail path v stop (back next) (.notAnArray .writing label))
  | behindIndex offset label items i back => do
    match ← Path.Cursor.separator path offset with
    | some b => some (enterItem path v (offset + 1) label items i b back)
    | none =>
      match Items.set items i v with
      | (changed, .ok ()) => some (.halt offset (back (.array changed), .ok ()))
      | (left, .error rejected) =>
        some (.halt offset
          (back (.array left), .error ⟨.noticed path offset .noRoom, rejected.value⟩))

def root (ns : Dict Value) : Value → Dict Value
  | .dict changed => changed
  | _ => ns

end Storer

def storer (path : Path) (v : Value) : Machine Storer Storer.Outcome where
  step := Storer.step path v
  position := Storer.offset

namespace Path

/-!
# Storing what has been read
-/

/-- What comes of storing at a value, in terms of what the namespace becomes when another
value takes its place. -/
def storeOn (path : Path) (v : Value) (label : Bytes) (back : Value → Dict Value)
    (next : Value) (r : Reading) : Storer.Outcome :=
  let stored := path.store v label (some next) r.segments r.ending
  (back (stored.1.getD next), stored.2.mapError (⟨·, v⟩))

theorem storeOn_of_store {path : Path} {v next : Value} {label : Bytes}
    {back : Value → Dict Value} {segments : List Segment} {ending : Ending} {stored : Stored}
    (h : path.store v label (some next) segments ending = stored) :
    path.storeOn v label back next ⟨segments, ending⟩ =
      (back (stored.1.getD next), stored.2.mapError (⟨·, v⟩)) := by
  rw [storeOn, h]

theorem assign_eq_storeOn (ns : Dict Value) (path : Path) (v : Value) :
    assign ns path v = path.storeOn v [] (Storer.root ns) (.dict ns) path.read := by
  rw [assign, storeOn]
  rcases path.store v [] (some (.dict ns)) path.read.segments path.read.ending with
    ⟨_ | w, outcome⟩
  · rfl
  · cases w <;> rfl

theorem storeOn_name_unfit (path : Path) (v : Value) (label : Bytes)
    (back : Value → Dict Value) {next : Value} (h : ∀ d, next ≠ .dict d) (start : Nat)
    (bytes : Bytes) :
    path.storeOn v label back next (readFrom (.name start bytes) start bytes) =
      (back next, .error ⟨.noticed path start (.notADict .writing label), v⟩) := by
  rcases readFrom_name_cases start bytes with ⟨fault, _, hread⟩ | ⟨name, rest, _, _, _, hread⟩
  · rw [hread]
    cases next with
    | dict d =>
        exact absurd rfl (h d)
    | _ =>
        rfl
  · rw [hread]
    cases next with
    | dict d =>
        exact absurd rfl (h d)
    | _ =>
        rfl

theorem exists_store (path : Path) (v : Value) (label : Bytes) (next : Value)
    (segments : List Segment) (ending : Ending) :
    ∃ w, (path.store v label (some next) segments ending).1 = some w := by
  cases segments with
  | nil =>
      cases ending with
      | badName start fault =>
          cases next <;> exact ⟨_, rfl⟩
      | _ =>
          exact ⟨_, rfl⟩
  | cons segment rest =>
      cases segment with
      | name start name =>
          cases next with
          | dict d =>
              rw [store, Option.getD_some]
              simp only
              split
              · exact ⟨_, rfl⟩
              · split
                · exact ⟨_, rfl⟩
                · exact ⟨_, rfl⟩
          | _ =>
              exact ⟨_, rfl⟩
      | index start stop i =>
          cases next with
          | array items =>
              rw [store, Option.getD_some]
              simp only
              split
              · split
                · exact ⟨_, rfl⟩
                · exact ⟨_, rfl⟩
              · exact ⟨_, rfl⟩
          | _ =>
              exact ⟨_, rfl⟩

/-- Storing at an empty place is storing at the container that the separator calls for. -/
theorem store_fresh (path : Path) (v : Value) (label : Bytes) {b : UInt8} {fresh : Value}
    (h : Storer.fresh? b = some fresh) (offset : Nat) (rest : Bytes) :
    path.store v label none (readFrom .separator offset (b :: rest)).segments
        (readFrom .separator offset (b :: rest)).ending =
      path.store v label (some fresh) (readFrom .separator offset (b :: rest)).segments
        (readFrom .separator offset (b :: rest)).ending := by
  unfold Storer.fresh? at h
  rw [readFrom]
  by_cases hdot : b = Byte.dot
  · rw [if_pos hdot] at h ⊢
    cases h
    rcases readFrom_name_cases (offset + 1) rest with
      ⟨fault, _, hread⟩ | ⟨name, more, _, _, _, hread⟩
    · rw [hread]
      rfl
    · rw [hread]
      rfl
  · rw [if_neg hdot] at h ⊢
    by_cases hbracket : b = Byte.openBracket
    · rw [if_pos hbracket] at h ⊢
      cases h
      rcases readFrom_index_cases (offset + 1) rest with
        ⟨n, fault, _, hread⟩ | ⟨token, more, _, _, hread⟩
      · rw [hread]
        rfl
      · rw [hread]
        rfl
    · rw [if_neg hbracket] at h
      cases h

theorem storeOn_member {path : Path} {v : Value} {label : Bytes} {back : Value → Dict Value}
    {c next : Value} {r : Reading} (segment : Segment) (hadmits : c.Admits segment.step)
    (hstorable : Storable segment.step) (hmore : ¬ (r.segments = [] ∧ r.ending = .complete))
    (hnext : path.store v (segment.label label) (c.member? segment.step) r.segments r.ending =
      path.store v (segment.label label) (some next) r.segments r.ending) :
    path.storeOn v label back c (r.prepend segment) =
      path.storeOn v (segment.label label) (fun w =>
        back (c.place segment.step w)) next r := by
  have hslot : (some c).getD segment.step.container = c := rfl
  have hwithin := store_within path v label hslot hadmits hstorable hmore
  rcases path.exists_store v (segment.label label) next r.segments r.ending with ⟨w, hw⟩
  rw [storeOn, storeOn, Reading.prepend, hwithin, hnext]
  simp only [hw, Option.elim_some, Option.getD_some]

theorem not_complete_of_cons (offset : Nat) (b : UInt8) (rest : Bytes) :
    ¬ ((readFrom .separator offset (b :: rest)).segments = [] ∧
      (readFrom .separator offset (b :: rest)).ending = .complete) := by
  have hreads := readsOn_readFrom offset (b :: rest)
  rintro ⟨hsegments, hending⟩
  rw [hsegments, hending] at hreads
  cases hreads

end Path

namespace Storer

/-!
# Every assignment stays in range
-/

/-- The cursor has passed the front of the path, and storing along what is read behind it
comes to what the assignment comes to. -/
inductive Within (ns : Dict Value) (path : Path) (v : Value) : Storer → Prop where
  | name {rest label : Bytes} {offset : Nat} {d : Dict Value} {back : Value → Dict Value} :
      path ≠ [] → Bytes.Remains path offset rest →
      path.storeOn v label back (.dict d) (Path.readFrom (.name offset rest) offset rest) =
        assign ns path v →
      Within ns path v (.name offset d back)
  | behindName {rest label bytes : Bytes} {offset start : Nat} {d : Dict Value}
      {back : Value → Dict Value} :
      Bytes.Remains path offset rest → Path.AtSeparator rest →
      path.storeOn v label back (.dict d)
        ((Path.readFrom .separator offset rest).prepend (.name start bytes)) =
          assign ns path v →
      Within ns path v (.behindName offset bytes d back)
  | index {rest label : Bytes} {offset : Nat} {next : Value} {back : Value → Dict Value} :
      Bytes.Remains path offset rest →
      path.storeOn v label back next (Path.readFrom (.index offset rest) offset rest) =
        assign ns path v →
      Within ns path v (.index offset label next back)
  | behindIndex {rest label : Bytes} {offset start i : Nat} {items : List Value}
      {back : Value → Dict Value} :
      Bytes.Remains path offset rest → i < maxArrayLength →
      path.storeOn v label back (.array items)
        ((Path.readFrom .separator offset rest).prepend (.index start offset i)) =
          assign ns path v →
      Within ns path v (.behindIndex offset label items i back)

theorem Within.offset_le {ns : Dict Value} {path : Path} {v : Value} {s : Storer}
    (h : Within ns path v s) : s.offset ≤ path.length := by
  cases h with
  | name _ hrest _ =>
      exact hrest.offset_le
  | behindName hrest _ _ =>
      exact hrest.offset_le
  | index hrest _ =>
      exact hrest.offset_le
  | behindIndex hrest _ _ =>
      exact hrest.offset_le

variable {ns : Dict Value} {path : Path} {v : Value} {rest label : Bytes} {offset : Nat}
  {back : Value → Dict Value}

theorem halt_advances {start stop : Nat} {outcome : Outcome} (hstart : start ≤ stop)
    (hstop : stop ≤ path.length) (h : outcome = assign ns path v) :
    (Move.halt stop outcome).Advances Storer.offset path.length (Within ns path v)
      (assign ns path v)
      start := by
  rw [h]
  exact .halt hstart hstop

theorem enter_advances {next : Value} {b : UInt8}
    (hrest : Bytes.Remains path offset (b :: rest))
    (hstore : path.storeOn v label back next (Path.readFrom .separator offset (b :: rest)) =
      assign ns path v) :
    (enter path v (offset + 1) label next b back).Advances Storer.offset path.length
      (Within ns path v) (assign ns path v) offset := by
  have hle := hrest.next.offset_le
  have hne : path ≠ [] := List.ne_nil_of_length_pos (Nat.zero_lt_of_lt hle)
  unfold enter
  rw [Path.readFrom] at hstore
  by_cases hdot : b = Byte.dot
  · rw [if_pos hdot] at hstore ⊢
    by_cases hdict : ∃ d, next = .dict d
    · rcases hdict with ⟨d, rfl⟩
      exact .onward (.name hne hrest.next hstore) (Nat.lt_succ_self _)
    · rw [not_exists] at hdict
      rw [Path.storeOn_name_unfit path v label back hdict] at hstore
      cases next with
      | dict d =>
          exact absurd rfl (hdict d)
      | _ =>
          exact halt_advances (Nat.le_succ _) hle hstore
  · rw [if_neg hdot] at hstore ⊢
    by_cases hbracket : b = Byte.openBracket
    · rw [if_pos hbracket] at hstore ⊢
      exact .onward (.index hrest.next hstore) (Nat.lt_succ_self _)
    · rw [if_neg hbracket] at hstore ⊢
      exact halt_advances (Nat.le_succ _) hle hstore

theorem enterEntry_advances {bytes : Bytes} {d : Dict Value} {b : UInt8} {start : Nat}
    (hrest : Bytes.Remains path offset (b :: rest))
    (hseparator : Path.AtSeparator (b :: rest))
    (hstore : path.storeOn v label back (.dict d)
      ((Path.readFrom .separator offset (b :: rest)).prepend (.name start bytes)) =
        assign ns path v) :
    (enterEntry path v (offset + 1) bytes d b back).Advances Storer.offset path.length
      (Within ns path v) (assign ns path v) offset := by
  have hfresh : ∃ fresh, fresh? b = some fresh := by
    rcases hseparator b rfl with rfl | rfl
    · exact ⟨_, rfl⟩
    · exact ⟨_, rfl⟩
  rcases hfresh with ⟨fresh, hfresh⟩
  have hmember : path.store v bytes (d.get? bytes)
      (Path.readFrom .separator offset (b :: rest)).segments
      (Path.readFrom .separator offset (b :: rest)).ending =
        path.store v bytes (some ((d.get? bytes).getD fresh))
          (Path.readFrom .separator offset (b :: rest)).segments
          (Path.readFrom .separator offset (b :: rest)).ending := by
    cases d.get? bytes with
    | none =>
        exact path.store_fresh v bytes hfresh offset rest
    | some w =>
        rfl
  rw [Path.storeOn_member (c := .dict d) (.name start bytes) trivial trivial
    (Path.not_complete_of_cons offset b rest) hmember] at hstore
  unfold enterEntry
  simp only [hfresh, Dict.update_ensure, Dict.get?_ensure, if_pos, Option.getD_some]
  exact enter_advances hrest hstore

theorem storeOn_stray {b : UInt8} (h : fresh? b = none) (items : List Value) (start i : Nat)
    (hitem : items[i]? = none) :
    path.storeOn v label back (.array items)
        ((Path.readFrom .separator offset (b :: rest)).prepend (.index start offset i)) =
      (back (.array items), .error ⟨.noticed path (offset + 1) .strayByte, v⟩) := by
  unfold fresh? at h
  rw [Path.readFrom]
  by_cases hdot : b = Byte.dot
  · rw [if_pos hdot] at h
    cases h
  · rw [if_neg hdot] at h ⊢
    by_cases hbracket : b = Byte.openBracket
    · rw [if_pos hbracket] at h
      cases h
    · have hstore : path.store v label (some (.array items)) [.index start offset i]
          (.stray (offset + 1)) =
            (some (.array items), .error (.noticed path (offset + 1) .strayByte)) := by
        simp [Path.store, hitem]
      rw [if_neg hbracket]
      exact Path.storeOn_of_store hstore

theorem enterItem_advances {items : List Value} {b : UInt8} {start i : Nat}
    (hrest : Bytes.Remains path offset (b :: rest)) (hi : i < maxArrayLength)
    (hstore : path.storeOn v label back (.array items)
      ((Path.readFrom .separator offset (b :: rest)).prepend (.index start offset i)) =
        assign ns path v) :
    (enterItem path v (offset + 1) label items i b back).Advances Storer.offset path.length
      (Within ns path v) (assign ns path v) offset := by
  have hmore := Path.not_complete_of_cons offset b rest
  unfold enterItem
  cases hitem : items[i]? with
  | some next =>
      have hput (w : Value) : Items.put items i w = items.set i w :=
        if_pos (List.getElem?_eq_some_iff.mp hitem).choose
      have hmember : Value.member? (.array items) (.index i) = some next := hitem
      rw [Path.storeOn_member (c := .array items) (.index start offset i) trivial hi hmore
        (congrArg (path.store v label · _ _) hmember)] at hstore
      simp only [Path.Segment.step, Value.place, hput] at hstore
      exact enter_advances hrest hstore
  | none =>
      cases hfresh : fresh? b with
      | none =>
          rw [storeOn_stray hfresh items start i hitem] at hstore
          exact halt_advances (Nat.le_succ _) hrest.next.offset_le hstore
      | some fresh =>
          have hmember : Value.member? (.array items) (.index i) = none := hitem
          have hset := Path.Storable.set_eq hi items fresh
          have hput (w : Value) : (Items.put items i fresh).set i w = Items.put items i w := by
            rw [← Items.put_put items i fresh w]
            exact (if_pos (by rw [Items.length_put]; omega)).symm
          rw [Path.storeOn_member (c := .array items) (.index start offset i) trivial hi hmore
            ((congrArg (path.store v label · _ _) hmember).trans
              (path.store_fresh v label hfresh offset rest))] at hstore
          simp only [hset, hput]
          exact enter_advances hrest hstore

theorem name_advances {d : Dict Value} (hne : path ≠ [])
    (hrest : Bytes.Remains path offset rest)
    (hstore :
      path.storeOn v label back (.dict d) (Path.readFrom (.name offset rest) offset rest) =
      assign ns path v) :
    ∃ move, step path v (.name offset d back) = some move ∧
      move.Advances Storer.offset path.length (Within ns path v)
        (assign ns path v) offset := by
  have hempty : ¬ path.isEmpty = true := by simpa using hne
  rw [step, if_neg hempty]
  rcases Path.Cursor.name_cases hrest with
    ⟨fault, hname, hread⟩ | ⟨bytes, more, rfl, hbytes, hmore, hname, hread⟩
  · rw [hread] at hstore
    rw [hname]
    exact ⟨_, rfl, halt_advances (Nat.le_refl _) hrest.offset_le hstore⟩
  · have hlt : offset < offset + bytes.length :=
      Nat.lt_add_of_pos_right (List.length_pos_iff.mpr hbytes)
    rw [hread] at hstore
    rw [hname]
    exact ⟨_, rfl, .onward (.behindName hrest.behind hmore hstore) hlt⟩

theorem behindName_advances {bytes : Bytes} {d : Dict Value} {start : Nat}
    (hrest : Bytes.Remains path offset rest) (hseparator : Path.AtSeparator rest)
    (hstore : path.storeOn v label back (.dict d)
      ((Path.readFrom .separator offset rest).prepend (.name start bytes)) =
        assign ns path v) :
    ∃ move, step path v (.behindName offset bytes d back) = some move ∧
      move.Advances Storer.offset path.length (Within ns path v)
        (assign ns path v) offset := by
  rw [step, Path.Cursor.separator_eq hrest]
  cases rest with
  | nil =>
      exact ⟨_, rfl, halt_advances (Nat.le_refl _) hrest.offset_le hstore⟩
  | cons b rest =>
      exact ⟨_, rfl, enterEntry_advances hrest hseparator hstore⟩

theorem index_advances {next : Value} (hrest : Bytes.Remains path offset rest)
    (hstore : path.storeOn v label back next (Path.readFrom (.index offset rest) offset rest) =
      assign ns path v) :
    ∃ move, step path v (.index offset label next back) = some move ∧
      move.Advances Storer.offset path.length (Within ns path v)
        (assign ns path v) offset := by
  rw [step]
  rcases Path.Cursor.index_cases hrest with
    ⟨n, fault, hn, hindex, hread⟩ | ⟨token, more, i, rfl, hi, hindex, hread⟩
  · have hlength := hrest.length_eq
    rw [hread] at hstore
    rw [hindex]
    exact ⟨_, rfl, halt_advances (Nat.le_add_right _ _) (by omega) hstore⟩
  · have hmore := hrest.behind.next
    have hlt : offset < offset + token.length + 1 := by omega
    rw [hread] at hstore
    simp only [hindex, Option.bind_eq_bind, Option.bind_some]
    cases next with
    | array items =>
        exact ⟨_, rfl, .onward (.behindIndex hmore hi hstore) hlt⟩
    | _ =>
        exact ⟨_, rfl, halt_advances (Nat.le_of_lt hlt) hmore.offset_le hstore⟩

theorem behindIndex_advances {items : List Value} {start i : Nat}
    (hrest : Bytes.Remains path offset rest) (hi : i < maxArrayLength)
    (hstore : path.storeOn v label back (.array items)
      ((Path.readFrom .separator offset rest).prepend (.index start offset i)) =
        assign ns path v) :
    ∃ move, step path v (.behindIndex offset label items i back) = some move ∧
      move.Advances Storer.offset path.length (Within ns path v)
        (assign ns path v) offset := by
  rw [step, Path.Cursor.separator_eq hrest]
  cases rest with
  | nil =>
      have hset := Path.Storable.set_eq hi items v
      have hput : path.store v label (some (.array items)) [.index start offset i] .complete =
          (some (.array (Items.put items i v)), .ok ()) := by
        simp [Path.store, hset]
      have hstored := (Path.storeOn_of_store hput).symm.trans hstore
      simp only [List.head?_nil, Option.bind_eq_bind, Option.bind_some, hset]
      exact ⟨_, rfl, halt_advances (Nat.le_refl _) hrest.offset_le hstored⟩
  | cons b rest =>
      exact ⟨_, rfl, enterItem_advances hrest hi hstore⟩

theorem step_advances (s : Storer) (h : Within ns path v s) :
    (storer path v).Advances path.length (Within ns path v) (assign ns path v) s := by
  cases h with
  | name hne hrest hstore =>
      exact name_advances hne hrest hstore
  | behindName hrest hseparator hstore =>
      exact behindName_advances hrest hseparator hstore
  | index hrest hstore =>
      exact index_advances hrest hstore
  | behindIndex hrest hi hstore =>
      exact behindIndex_advances hrest hi hstore

theorem runsWithin (ns : Dict Value) (path : Path) (v : Value) :
    (storer path v).RunsWithin path.length (.name 0 ns (root ns)) (assign ns path v) := by
  cases path with
  | nil =>
      -- the machine halts at once
      apply Machine.runsWithin (· = Storer.name 0 ns (root ns))
      · rintro s rfl
        exact Nat.le_refl _
      · rintro s rfl
        exact ⟨_, rfl, .halt (Nat.le_refl _) (Nat.le_refl _)⟩
      · rfl
  | cons b rest =>
      apply Machine.runsWithin (Within ns (b :: rest) v)
      · intro s h
        exact h.offset_le
      · exact step_advances
      · exact .name (List.cons_ne_nil b rest) (Bytes.remains_start _)
          (Path.assign_eq_storeOn ns (b :: rest) v).symm

end Storer
end Stencil
