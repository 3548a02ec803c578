import Stencil.CommandLine

/-!
# Hosts

What a run relies on of the system that it runs on, stated for any states that such a
system may have.  A state is seen through the files that names stand for, what they hold,
and the standard output.
-/

namespace Stencil

theorem run_bind_of_run_eq {σ α β : Type} {x : StateM σ α} {s s' : σ} {a : α}
    (h : x.run s = (a, s')) (f : α → StateM σ β) : (x >>= f).run s = (f a).run s' := by
  rw [StateT.run_bind, h]
  rfl

namespace Host

/-- Where the file of a name is or would be, what the file at a place holds if there is
one, and what the standard output has had. -/
structure View (σ π : Type) where
  place? : σ → Bytes → Option π
  content? : σ → π → Option Bytes
  output : σ → Bytes

variable {σ π : Type}

namespace View

structure Same (view : View σ π) (s s' : σ) : Prop where
  place? : view.place? s' = view.place? s
  content? : view.content? s' = view.content? s
  output : view.output s' = view.output s

structure Holds (view : View σ π) (s s' : σ) (place : π) (bytes : Bytes) : Prop where
  place? : view.place? s' = view.place? s
  content?_self : view.content? s' place = some bytes
  content?_of_ne : ∀ other, other ≠ place → view.content? s' other = view.content? s other
  output : view.output s' = view.output s

structure Appends (view : View σ π) (s s' : σ) (bytes : Bytes) : Prop where
  place? : view.place? s' = view.place? s
  content? : view.content? s' = view.content? s
  output : view.output s' = view.output s ++ bytes

/-- The output of a run is `bytes`: they follow what the standard output has had, or take
the place of whatever the file held. -/
structure Delivers (view : View σ π) (s s' : σ) (output bytes : Bytes) : Prop where
  standard : output = Arguments.standard → view.Appends s s' bytes
  file : output ≠ Arguments.standard →
    ∀ place, view.place? s output = some place → view.Holds s s' place bytes

variable {view : View σ π} {s s' s'' : σ}

theorem Same.refl (view : View σ π) (s : σ) : view.Same s s := ⟨rfl, rfl, rfl⟩

theorem Same.trans (h : view.Same s s') (h' : view.Same s' s'') : view.Same s s'' :=
  ⟨h'.place?.trans h.place?, h'.content?.trans h.content?, h'.output.trans h.output⟩

theorem Same.holds {place : π} {bytes : Bytes} (h : view.Same s s')
    (h' : view.Holds s' s'' place bytes) : view.Holds s s'' place bytes where
  place? := h'.place?.trans h.place?
  content?_self := h'.content?_self
  content?_of_ne other hne := by
    rw [h'.content?_of_ne other hne, h.content?]
  output := h'.output.trans h.output

theorem Same.appends {bytes : Bytes} (h : view.Same s s') (h' : view.Appends s' s'' bytes) :
    view.Appends s s'' bytes where
  place? := h'.place?.trans h.place?
  content? := h'.content?.trans h.content?
  output := by
    rw [h'.output, h.output]

theorem Same.delivers {output bytes : Bytes} (h : view.Same s s')
    (h' : view.Delivers s' s'' output bytes) : view.Delivers s s'' output bytes where
  standard hstandard := h.appends (h'.standard hstandard)
  file hnamed place hplace := by
    rw [← h.place?] at hplace
    exact h.holds (h'.file hnamed place hplace)

theorem Holds.trans {place : π} {bytes bytes' : Bytes} (h : view.Holds s s' place bytes)
    (h' : view.Holds s' s'' place bytes') : view.Holds s s'' place bytes' where
  place? := h'.place?.trans h.place?
  content?_self := h'.content?_self
  content?_of_ne other hne := by
    rw [h'.content?_of_ne other hne, h.content?_of_ne other hne]
  output := h'.output.trans h.output

end View

/-- Reading leaves the files and the standard output alone.  Opening a file
creates it or empties it, and what is then written to it is added at its end, as
it is with the standard output. -/
structure Lawful (host : Host (StateM σ)) (view : View σ π) : Prop where
  readFile : ∀ {name s content s'}, (host.readFile name).run s = (content, s') → view.Same s s'
  readInput : ∀ {s input s'}, host.readInput.run s = (input, s') → view.Same s s'
  openFile : ∀ {name s s' place}, view.place? s name = some place →
    (host.openFile name).run s = (true, s') → view.Holds s s' place []
  writeFile : ∀ {name bytes s s' place content}, view.place? s name = some place →
    view.content? s place = some content → (host.writeFile name bytes).run s = (.ok (), s') →
    view.Holds s s' place (content ++ bytes)
  writeOutput : ∀ {bytes s done s'}, (host.writeOutput bytes).run s = (done, s') →
    view.Appends s s' bytes

/-- As long as nothing has changed, a file can be opened and takes what
is then written to it. -/
def Accepts (host : Host (StateM σ)) (view : View σ π) (s : σ) (name : Bytes) : Prop :=
  ∀ s', view.Same s s' → ∃ opened, (host.openFile name).run s' = (true, opened) ∧
    ∀ bytes, ∃ written, (host.writeFile name bytes).run opened = (.ok (), written)

theorem Accepts.of_same {host : Host (StateM σ)} {view : View σ π} {s s' : σ} {name : Bytes}
    (h : host.Accepts view s name) (hsame : view.Same s s') : host.Accepts view s' name :=
  fun s'' h' => h s'' (hsame.trans h')

end Host
end Stencil
