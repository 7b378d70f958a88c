/-
  PcmConvert.Config — what a conversion is to do: the two sides with their channels, the
  method asked for, the flags, and the limits of a single run.
-/

import PcmConvert.Channel.Map
import PcmConvert.Method.Basic

namespace PcmConvert

structure Flags where
  /-- The rates will change while running. -/
  variableRate : Bool := false
  /-- Channel `n` goes to channel `n`, whatever the positions. -/
  noRemap : Bool := false
  /-- Only equal positions are connected. -/
  noRemix : Bool := false
  /-- A low frequency output without a source is made from all inputs. -/
  produceLfe : Bool := false
  /-- A low frequency input without a target is mixed into the other outputs. -/
  consumeLfe : Bool := false
  /-- Outputs without a source stay silent, and mono goes to the fittest outputs only. -/
  noFillSink : Bool := false
  deriving DecidableEq, Repr

namespace Flags

/-- Every flag by name, in their order. -/
def entries (f : Flags) : List (String × Bool) :=
  [("variable_rate", f.variableRate), ("no_remap", f.noRemap), ("no_remix", f.noRemix),
   ("produce_lfe", f.produceLfe), ("consume_lfe", f.consumeLfe), ("no_fill_sink", f.noFillSink)]

/-- The names of the flags that are set. -/
def names (f : Flags) : List String := (f.entries.filter (·.2)).map (·.1)

/-- The flags with these names. -/
def ofNames (names : List String) : Flags :=
  let has (s : String) : Bool := names.contains s
  ⟨has "variable_rate", has "no_remap", has "no_remix", has "produce_lfe", has "consume_lfe", has "no_fill_sink"⟩

end Flags

/-- Bytes of a block of working memory, if nothing else is said. -/
def defaultSlab : Nat := 65536

structure Config where
  input : StreamSpec
  inputMap : ChannelMap
  output : StreamSpec
  outputMap : ChannelMap
  method : Method := .auto
  flags : Flags := {}
  /-- Where a low frequency output made from the inputs is split from the rest, in Hz. -/
  crossover : Option Nat := none
  /-- Bytes that each intermediate result of a run should fit in. -/
  slab : Nat := defaultSlab
  /-- Whether another method may stand in for the one asked for. -/
  fallback : Bool := true
  deriving DecidableEq, Repr

namespace Config

/-- Both sides in their usual layouts. -/
def ofSpecs? (input output : StreamSpec) : Option Config := do
  let i ← ChannelMap.default? input.channels
  let o ← ChannelMap.default? output.channels
  return { input, inputMap := i, output, outputMap := o }

/-- The first thing that is wrong: specs before maps, input before output, limits last. -/
def validate (c : Config) : Except Fault Unit := do
  c.input.validate
  c.output.validate
  c.inputMap.validate c.input
  c.outputMap.validate c.output
  if c.crossover = some 0 then throw (.invalidFormat .zeroCrossover)
  if c.slab = 0 then throw (.invalidFormat .zeroSlab)

theorem rates_pos_of_validate {c : Config} (h : c.validate = .ok ()) : 0 < c.input.rate ∧ 0 < c.output.rate := by
  unfold validate at h
  cases hi : c.input.validate with
  | error f => rw [hi] at h; cases h
  | ok =>
    rw [hi] at h
    cases ho : c.output.validate with
    | error f => rw [ho] at h; cases h
    | ok => exact ⟨StreamSpec.rate_pos_of_validate hi, StreamSpec.rate_pos_of_validate ho⟩

end Config

end PcmConvert
