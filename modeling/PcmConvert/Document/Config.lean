/-
  PcmConvert.Document.Config — the forms of a configuration and of its parts. Only the
  crossover may be left out; it is written as null then.
-/

import PcmConvert.Config
import PcmConvert.Document.Basic
import PcmConvert.Pipeline

namespace PcmConvert

namespace Form

def encoding : Form Encoding := choice Encoding.all Encoding.tag

def precision : Form Precision := choice Precision.all Precision.tag

def slot : Form Slot := choice Slot.all Slot.tag

def method : Form Method := choice Method.all Method.name

/-- An auxiliary position carries its number, any byte. -/
def position : Form Position where
  write
    | .aux n => .record [("aux", (below 256).write n)]
    | p => .text p.render
  read d := (case? d).bind fun c =>
    if c.1 = "aux" then (c.2.bind (below 256).read).map Position.aux
    else bare? Position.named Position.render c.1 c.2

def channelMap : Form ChannelMap := list position

/-- A rate or a frequency: 32 bits. -/
def word : Form Nat := below (1 <<< 32)

/-- A size: 64 bits. -/
def size : Form Nat := below (1 <<< 64)

def streamSpec : Form StreamSpec where
  write s := .record [("format", encoding.write s.encoding), ("rate", word.write s.rate),
    ("channels", (below 256).write s.channels)]
  read d := do
    match fields? ["format", "rate", "channels"] d with
    | some [e, r, c] => return ⟨← encoding.read e, ← word.read r, ← (below 256).read c⟩
    | _ => none

def flags : Form Flags where
  write f := .record (f.entries.map fun e => (e.1, bool.write e.2))
  read d := do
    match fields? (({} : Flags).entries.map (·.1)) d with
    | some [a, b, c, d, e, f] =>
      return ⟨← bool.read a, ← bool.read b, ← bool.read c, ← bool.read d, ← bool.read e, ← bool.read f⟩
    | _ => none

/-- The fields of a configuration, in their order. -/
def configFields : List String :=
  ["input", "input_map", "output", "output_map", "method", "flags", "crossover_freq", "slab_size", "allow_fallback"]

/-- A record without a crossover has the crossover null. -/
def withCrossover : Document → Document
  | .record r =>
    if (r.find? (·.1 == "crossover_freq")).isSome then .record r else .record (r ++ [("crossover_freq", .null)])
  | d => d

def crossover : Form (Option Nat) := option word

def config : Form Config where
  write c := .record (configFields.zip
    [streamSpec.write c.input, channelMap.write c.inputMap, streamSpec.write c.output, channelMap.write c.outputMap,
     method.write c.method, flags.write c.flags, crossover.write c.crossover, size.write c.slab,
     bool.write c.fallback])
  read d := do
    match fields? configFields (withCrossover d) with
    | some [i, im, o, om, m, f, x, s, a] =>
      return {
        input := ← streamSpec.read i, inputMap := ← channelMap.read im, output := ← streamSpec.read o,
        outputMap := ← channelMap.read om, method := ← method.read m, flags := ← flags.read f,
        crossover := ← crossover.read x, slab := ← size.read s, fallback := ← bool.read a }
    | _ => none

end Form

end PcmConvert
