/-
  PcmConvert.Mix.Matrix — the gains from input channels to output channels, derived from
  the positions on both sides.

  - With `noRemap` channel `n` goes to channel `n`; with `noRemix` only equal positions are
    connected. Otherwise the outputs are visited in order. An output takes the inputs that
    name it: the same position, mono, or any input if the output is mono. Failing that it
    takes an input that no earlier output took and that is its alias. Failing that it is
    filled from the inputs of its side; a center without centers, from both sides.
  - A low frequency output without a source is silent, or made from all inputs in equal
    parts. Inputs that feed it so do not count as taken.
  - Inputs that no output took are mixed in at low gain: to the outputs of their side, and
    centers, where no output is a center, to the sides, at their own placement if it is
    there. A low frequency input goes to all sides if it is to be consumed.
  - A row that sums to more than one is scaled down to one.
-/

import PcmConvert.Config
import PcmConvert.Mix.Gain

namespace PcmConvert

/-- One row of gains for each output, one gain for each input. -/
structure Matrix (α : Type) where
  inputs : Nat
  rows : List (List α)
  /-- Whether a low frequency output is made from all inputs. -/
  lfeSynthesized : Bool
  deriving Repr

namespace Mix

/-- An input channel, and whether an output took it. -/
structure Source where
  position : Position
  taken : Bool
  deriving DecidableEq, Repr

variable {α : Type} [Gain α]

/-- How many of `ps` are of a kind. -/
def count (kind : Position → Bool) (ps : List Position) : Nat := (ps.filter kind).length

/-! ## What an output takes -/

/-- Which outputs a mono input reaches, and with what gain. -/
structure MonoRoute (α : Type) where
  reaches : Position → Bool
  gain : α

/-- A mono input reaches everything but low frequencies with all it has; or only the
    fittest outputs, or all of them in equal parts. -/
def monoRoute (outputs : List Position) (f : Flags) : MonoRoute α :=
  if !f.noFillSink then ⟨(!·.isLfe), 1⟩
  else if outputs.contains .mono then ⟨(· == .mono), 1⟩
  else if outputs.contains .frontCenter then ⟨(· == .frontCenter), 1⟩
  else if outputs.contains .frontLeft && outputs.contains .frontRight then ⟨fun b => b == .frontLeft || b == .frontRight, 1⟩
  else ⟨(!·.isLfe), Gain.share (max 1 (count (!·.isLfe) outputs))⟩

def MonoRoute.gainAt (m : MonoRoute α) (b : Position) : α := if m.reaches b then m.gain else 0

/-- The gain from `a`, one of `n` inputs, to an output `b` that it names; `m` is what a
    mono input gives. -/
def named (n : Nat) (m : α) (a b : Position) : Option α :=
  if a = b then some 1
  else if a = .mono ∧ 0 < m then some m
  else if b = .mono then some (Gain.share n)
  else none

/-- The inputs of one kind, in equal parts. -/
def spread (kind : Position → Bool) (sources : List Source) : List (Option α) :=
  let n := count kind (sources.map (·.position))
  sources.map fun s => if kind s.position then some (Gain.share n) else none

/-- What fills an output without a source of its own. -/
def fill (sources : List Source) (b : Position) : List (Option α) :=
  if b.isLeft then spread Position.isLeft sources
  else if b.isRight then spread Position.isRight sources
  else if b.isCenter then
    if (sources.map (·.position)).any Position.isCenter then spread Position.isCenter sources
    else spread Position.isSided sources
  else sources.map fun _ => none

/-- The inputs that the output `b` takes, with their gains. -/
def links (mono : MonoRoute α) (f : Flags) (sources : List Source) (b : Position) : List (Option α) :=
  let m : α := mono.gainAt b
  let direct : List (Option α) := sources.map fun s => named sources.length m s.position b
  let aliases : List (Option α) := sources.map fun s => if !s.taken && s.position.isAlias b then some 1 else none
  if direct.any Option.isSome then direct
  else if aliases.any Option.isSome then aliases
  else if b.isLfe || f.noFillSink then sources.map fun _ => none
  else fill sources b

/-- Whether the output `b` takes nothing and is made from all inputs instead. -/
def synthesizes (f : Flags) (b : Position) (ls : List (Option α)) : Bool :=
  b.isLfe && f.produceLfe && !ls.any Option.isSome

def rowOf (f : Flags) (b : Position) (ls : List (Option α)) : List α :=
  if synthesizes f b ls then ls.map fun _ => Gain.share ls.length else ls.map (·.getD 0)

/-- The inputs after an output took its links. -/
def take (sources : List Source) (ls : List (Option α)) : List Source :=
  sources.zipWith (fun s l => { s with taken := s.taken || l.isSome }) ls

structure Scan (α : Type) where
  rows : List (List α)
  lfeSynthesized : Bool
  sources : List Source

/-- The outputs in order. -/
def scan (mono : MonoRoute α) (f : Flags) (sources : List Source) : List Position → Scan α
  | [] => ⟨[], false, sources⟩
  | b :: r =>
    let ls : List (Option α) := links mono f sources b
    let rest := scan mono f (take sources ls) r
    ⟨rowOf f b ls :: rest.rows, synthesizes f b ls || rest.lfeSynthesized, rest.sources⟩

/-! ## Inputs that no output took -/

/-- Inputs of a kind that are left. -/
def leftOver (kind : Position → Bool) (sources : List Source) : Nat :=
  count kind ((sources.filter (!·.taken)).map (·.position))

/-- Whether a center goes to the output `b`, at its own placement if an output has it. -/
def reaches (outputs : List Position) (a b : Position) : Bool :=
  b.isSided &&
    (!outputs.any (fun o => o.isSided && o.placement == a.placement) || a.placement == b.placement)

/-- The gain of an input that no output took. -/
def residual (outputs : List Position) (f : Flags) (sources : List Source) (b : Position) (s : Source) : Option α :=
  let a := s.position
  let part (n d : Nat) (kind : Position → Bool) : Option α :=
    some (Gain.ratio n d / Gain.ofNat (leftOver kind sources))
  if s.taken then none
  else if a.isLeft && b.isLeft then part 1 9 Position.isLeft
  else if a.isRight && b.isRight then part 1 9 Position.isRight
  else if a.isCenter && b.isCenter then part 1 9 Position.isCenter
  else if a.isLfe && f.consumeLfe && (b.isLeft || b.isRight || b.isCenter) then part 3 8 Position.isLfe
  else if a.isCenter && !outputs.any Position.isCenter && reaches outputs a b then
    part 1 2 fun c => c.isCenter && reaches outputs c b
  else none

/-- The row of `b` with what is left mixed in. -/
def mixIn (outputs : List Position) (f : Flags) (sources : List Source) (b : Position) (row : List α) : List α :=
  sources.zipWith (fun s g => (residual outputs f sources b s).getD g) row

/-! ## All of it -/

/-- No row sums to more than one. -/
def normalize (row : List α) : List α :=
  let sum := Gain.total row
  if 1 < sum then row.map (· / sum) else row

def remix (inputs outputs : List Position) (f : Flags) : Matrix α :=
  let s : Scan α := scan (monoRoute outputs f) f (inputs.map fun p => ⟨p, false⟩) outputs
  ⟨inputs.length, outputs.zipWith (mixIn outputs f s.sources) s.rows, s.lfeSynthesized⟩

end Mix

namespace Matrix

variable {α : Type} [Gain α]

open Mix

/-- The matrix from `inputs` to `outputs`, rows not scaled yet. -/
def rules (inputs outputs : ChannelMap) (f : Flags) : Matrix α :=
  if f.noRemap then
    let row (o : Nat) : List α := (List.range inputs.length).map fun i => if i = o then 1 else 0
    ⟨inputs.length, (List.range outputs.length).map row, false⟩
  else if f.noRemix then
    ⟨inputs.length, outputs.map fun b => inputs.map fun a => if a = b then 1 else 0, false⟩
  else remix inputs outputs f

def build (inputs outputs : ChannelMap) (f : Flags) : Matrix α :=
  let m : Matrix α := rules inputs outputs f
  { m with rows := m.rows.map normalize }

def outputs (m : Matrix α) : Nat := m.rows.length

/-- A matrix without inputs shows no rows. -/
def shown (m : Matrix α) : List (List α) := if m.inputs = 0 then [] else m.rows

def gain? (m : Matrix α) (output input : Nat) : Option α := do
  let row ← m.rows[output]?
  row[input]?

/-- Without inputs every row is empty, whatever its number. -/
def row? (m : Matrix α) (output : Nat) : Option (List α) := if m.inputs = 0 then some [] else m.rows[output]?

/-! ## Plain copies -/

/-- The input that a row copies, if it copies one or is silent. -/
def copied? (row : List α) : Option (Option Nat) :=
  match row.zipIdx.filter fun g => !(g.1 == 0) with
  | [] => some none
  | [(g, i)] => if g == 1 then some (some i) else none
  | _ => none

/-- The input that each output copies, if every output does no more than that. -/
def permutation? (m : Matrix α) : Option (List (Option Nat)) := m.shown.mapM copied?

/-- Every output is the input of the same number. -/
def isIdentity (m : Matrix α) : Bool :=
  m.inputs == m.outputs && m.permutation? == some ((List.range m.shown.length).map some)

/-- A table of the gains: a column for each input, a line for each output. -/
def render (m : Matrix Float32) : String :=
  let column (i : Nat) : String := "  I" ++ Text.twoDigits i
  let line (row : List Float32) (o : Nat) : String :=
    "\n O" ++ Text.twoDigits o ++ String.join (row.map fun g => " " ++ Number.places3 (Number.exact g))
  "     " ++ String.join ((List.range m.inputs).map column) ++
    String.join (m.shown.zipIdx.map fun r => line r.1 r.2)

end Matrix

end PcmConvert
