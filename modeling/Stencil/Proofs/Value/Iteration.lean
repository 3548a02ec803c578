import Stencil.Proofs.Bytes.Decimal
import Stencil.Proofs.Path.Extension
import Stencil.Proofs.Value.WellFormed
import Stencil.Value.Display
import Stencil.Value.Entries
import Stencil.Standard

/-!
# Iterating and looking up

An iteration yields the members of a container in order.  Each of them is also found by
looking its key up behind the path to the container: an index by its decimal numeral in
brackets, which is read back as that index, and a name behind a dot.
-/

namespace Stencil

/-!
# What an iteration yields
-/

namespace Iteration

inductive Yields : Iteration → List (Key × Value) → Prop where
  | done {i : Iteration} : i.next? = none → Yields i []
  | next {i rest : Iteration} {e : Key × Value} {entries : List (Key × Value)} :
      i.next? = some (e, rest) → Yields rest entries → Yields i (e :: entries)

theorem yields_iff (i : Iteration) (entries : List (Key × Value)) :
    i.Yields entries ↔ entries = i.remaining := by
  constructor
  · intro h
    induction h with
    | @done i hnext =>
        rcases i with ⟨_ | ⟨e, remaining⟩⟩
        · rfl
        · cases hnext
    | @next i rest e entries hnext _ ih =>
        rcases i with ⟨_ | ⟨first, remaining⟩⟩
        · cases hnext
        · cases hnext
          rw [ih]
  · intro h
    rcases i with ⟨remaining⟩
    rw [h]
    induction remaining generalizing entries with
    | nil =>
        exact Yields.done rfl
    | cons e remaining ih =>
        exact Yields.next rfl (ih remaining rfl)

end Iteration

namespace Value

theorem map_fst_indexed (items : List Value) :
    (indexed items).map Prod.fst = (List.range items.length).map Key.index := by
  rw [List.range_eq_range', ← List.zipIdx_map_snd 0 items, indexed, List.map_map, List.map_map]
  rfl

theorem map_snd_indexed (items : List Value) : (indexed items).map Prod.snd = items := by
  rw [indexed, List.map_map]
  exact List.zipIdx_map_fst 0 items

theorem mem_indexed_iff (items : List Value) (e : Key × Value) :
    e ∈ indexed items ↔ ∃ i, e.1 = .index i ∧ items[i]? = some e.2 := by
  rw [indexed, List.mem_map]
  constructor
  · intro h
    rcases h with ⟨x, hx, rfl⟩
    exact ⟨x.2, rfl, List.mem_zipIdx_iff_getElem?.mp hx⟩
  · intro h
    rcases h with ⟨i, hkey, hget⟩
    refine ⟨(e.2, i), List.mem_zipIdx_iff_getElem?.mpr hget, ?_⟩
    rw [← hkey]

theorem display_index [Addressing] {n : Nat} (h : n < Number.signedBound) :
    (Key.index n).toValue.display = Bytes.decimal n := by
  have hn : (Int64.ofNat n).toInt = n := Int64.toInt_ofNat_of_lt h
  rw [Key.toValue, display, displayPieces, hn, List.flatten_singleton, Bytes.decimalInt,
    if_neg (Int.not_lt.mpr (Int.natCast_nonneg n)), Int.natAbs_natCast]

end Value

/-!
# Looking up behind a path
-/

namespace Path

def bracketed (path : Path) (token : Bytes) : Path :=
  path ++ Byte.openBracket :: (token ++ [Byte.closeBracket])

theorem tokenFault?_decimal {n : Nat} (h : n < Number.unsignedBound) :
    tokenFault? (Bytes.decimal n) = none := by
  rw [tokenFault?_eq_none_iff]
  exact ⟨Bytes.decimal_ne_nil n, Nat.lt_of_le_of_lt (Bytes.length_decimal_le h) (by decide)⟩

theorem tokenIndex_decimal (n : Nat) :
    tokenIndex (Bytes.decimal n) =
      if n < maxArrayLength then .ok n else .error .indexOutOfBounds := by
  have hdigits : (Bytes.decimal n).all Byte.isDigit = true :=
    List.all_eq_true.mpr fun _ hb => Bytes.isDigit_of_mem_decimal hb
  rw [tokenIndex, hdigits, Bytes.digitsValue_decimal]
  rfl

theorem closeBracket_notMem_decimal (n : Nat) : Byte.closeBracket ∉ Bytes.decimal n := by
  intro h
  have hdigit := Bytes.isDigit_of_mem_decimal h
  contradiction

theorem readFrom_decimal {n : Nat} (h : n < Number.unsignedBound) (offset : Nat) :
    readFrom .separator offset
        (Byte.openBracket :: (Bytes.decimal n ++ [Byte.closeBracket])) =
      if n < maxArrayLength then
        ⟨[.index (offset + 1) (offset + 1 + (Bytes.decimal n).length + 1) n], .complete⟩
      else
        .endingIn (.badIndex (offset + 1) (offset + 1 + (Bytes.decimal n).length + 1)
          .indexOutOfBounds) := by
  rw [readFrom, if_neg (by decide), if_pos rfl, readFrom_index (closeBracket_notMem_decimal n),
    closeIndex, Nat.add_sub_cancel_left, List.take_length, tokenFault?_decimal h,
    tokenIndex_decimal]
  by_cases hbound : n < maxArrayLength
  · rw [if_pos hbound, if_pos hbound]
    rfl
  · rw [if_neg hbound, if_neg hbound]

theorem lookup_bracketed_decimal {ns : Dict Value} {path : Path} {items : List Value}
    (h : lookup ns path = .ok (.array items)) (hlength : items.length ≤ maxArrayLength)
    {n : Nat} (hn : n < Number.unsignedBound) :
    lookup ns (path.bracketed (Bytes.decimal n)) =
      match items[n]? with
      | some v => .ok v
      | none => .error (.noticed (path.bracketed (Bytes.decimal n))
          (path.bracketed (Bytes.decimal n)).length .indexOutOfBounds) := by
  rcases lookup_append h (atSeparator_openBracket (Bytes.decimal n ++ [Byte.closeBracket]))
    with ⟨label, hlookup⟩
  have hstop : path.length + 1 + (Bytes.decimal n).length + 1 =
      (path.bracketed (Bytes.decimal n)).length := by
    simp only [bracketed, List.length_append, List.length_cons, List.length_nil]
    omega
  rw [readFrom_decimal hn, hstop] at hlookup
  rw [← bracketed] at hlookup
  rw [hlookup]
  by_cases hbound : n < maxArrayLength
  · rw [if_pos hbound, find]
    cases items[n]? with
    | some v =>
        rfl
    | none =>
        rfl
  · have hget : items[n]? = none := by
      rw [List.getElem?_eq_none_iff]
      exact Nat.le_trans hlength (Nat.not_lt.mp hbound)
    rw [if_neg hbound, hget]
    rfl

theorem lookup_dot_name {ns d : Dict Value} {path : Path} (h : lookup ns path = .ok (.dict d))
    {name : Bytes} (hname : IsName name) {v : Value} (hget : d.get? name = some v) :
    lookup ns (path ++ Byte.dot :: name) = .ok v := by
  have hspells : Spells name [.name name] := by
    have hstart := Spells.start hname Continues.done
    rw [List.append_nil] at hstart
    exact hstart
  rw [lookup_append_dot h, hspells.lookup_eq_ok_iff, Value.follow?_cons]
  exact Option.bind_eq_some_iff.mpr ⟨v, hget, rfl⟩

end Path

/-!
# The theorem
-/

/-- Iterating an array that a path leads to yields one entry for each index in turn, which
is also found behind the path under the display text of its key, and no other index of 64
bits is within bounds there.  Iterating a dictionary yields its entries in order, and
those whose keys are names are also found behind the path. -/
theorem lookup_of_iterated [Addressing] {ns : Dict Value} (hns : (Value.dict ns).WellFormed)
    (path : Path) :
    (∀ items, lookup ns path = .ok (.array items) →
      ∃ i entries, (Value.array items).iterate = .ok i ∧ i.Yields entries ∧
        i.length = (Value.array items).length ∧ entries.length = (Value.array items).length ∧
        entries.map Prod.fst = (List.range items.length).map Key.index ∧
        entries.map Prod.snd = items ∧
        (∀ e ∈ entries, lookup ns (path.bracketed e.1.toValue.display) = .ok e.2) ∧
        ∀ n, items.length ≤ n → n < Number.unsignedBound →
          lookup ns (path.bracketed (Bytes.decimal n)) =
            .error (.noticed (path.bracketed (Bytes.decimal n))
              (path.bracketed (Bytes.decimal n)).length .indexOutOfBounds)) ∧
    ∀ d, lookup ns path = .ok (.dict d) →
      ∃ i entries, (Value.dict d).iterate = .ok i ∧ i.Yields entries ∧
        i.length = (Value.dict d).length ∧ entries.length = (Value.dict d).length ∧
        entries = d.entries.map (fun e => (Key.name e.1, e.2)) ∧
        ∀ key v, (Key.name key, v) ∈ entries → Path.IsName key →
          lookup ns (path ++ Byte.dot :: key) = .ok v := by
  -- The bound on arrays and the distinct keys hold of the container since
  -- they hold of all parts.
  have hpart : ∀ c, lookup ns path = .ok c → c.WellFormed := by
    intro c h
    rcases (lookup_eq_ok_iff ns path c).mp h with ⟨steps, _, hfollow⟩
    exact hns.follow hfollow
  constructor
  · intro items h
    have hlength := (hpart _ h).length_le
    have hindexed : (Value.indexed items).length = items.length := by
      rw [← List.length_map Prod.snd, Value.map_snd_indexed]
    refine ⟨⟨Value.indexed items⟩, Value.indexed items, rfl,
      (Iteration.yields_iff _ _).mpr rfl,
      hindexed, hindexed, Value.map_fst_indexed items, Value.map_snd_indexed items, ?_, ?_⟩
    · intro e he
      rcases (Value.mem_indexed_iff items e).mp he with ⟨n, hkey, hget⟩
      rcases List.getElem?_eq_some_iff.mp hget with ⟨hlt, _⟩
      have hn : n < maxArrayLength := Nat.lt_of_lt_of_le hlt hlength
      rw [hkey, Value.display_index (Nat.lt_trans hn (by decide)),
        Path.lookup_bracketed_decimal h hlength (Nat.lt_trans hn (by decide)), hget]
    · intro n hn hbits
      rw [Path.lookup_bracketed_decimal h hlength hbits, List.getElem?_eq_none hn]
  · intro d h
    have hnamed : (Value.named d).length = d.size := List.length_map _
    refine ⟨⟨Value.named d⟩, Value.named d, rfl, (Iteration.yields_iff _ _).mpr rfl,
      hnamed, hnamed, rfl, ?_⟩
    intro key v hmem hname
    rcases List.mem_map.mp hmem with ⟨e, he, heq⟩
    cases heq
    exact Path.lookup_dot_name h hname ((hpart _ h).distinct.get?_of_mem he)

theorem lookup_behind_iterated :
    (Value.dict (.ofList [(Bytes.ofText "a", .array [.int 5])])).WellFormed ∧
      lookup (.ofList [(Bytes.ofText "a", .array [.int 5])]) (Bytes.ofText "a") =
        .ok (.array [.int 5]) ∧
      lookup (.ofList [(Bytes.ofText "a", .array [.int 5])]) (Bytes.ofText "a[7]") =
        .error (.noticed (Bytes.ofText "a[7]") 4 .indexOutOfBounds) := by
  have hitems : (Value.array [.int 5]).WellFormed :=
    Value.WellFormed.emptyArray.append (Value.WellFormed.int 5)
  have hns : (Value.dict (.ofList [(Bytes.ofText "a", .array [.int 5])])).WellFormed :=
    Value.WellFormed.ofList (List.forall_mem_singleton.mpr hitems)
  rcases (lookup_of_iterated hns (Bytes.ofText "a")).left [.int 5] rfl
    with ⟨_, _, _, _, _, _, _, _, _, hbehind⟩
  exact ⟨hns, rfl, hbehind 7 (by decide) (by decide)⟩

end Stencil
