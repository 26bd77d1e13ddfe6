import ZzLang.Ir.Decode

/-!
# What the decoder admits

The conditions a module has to meet to survive the file format, gathered from
the checks the decoder makes and from the three things the encoder cannot write
down: an entry other than function zero, a span table of another length than
the code it belongs to, and a take op that names both a slot and a variable.

`ZzLang.Codec.Admissible` says nothing about lengths the decoder does not check
(signature parameters, array constants, the children of a tuple type, promoted
slots, string bytes): the format bounds those by the size of the file only.
-/

namespace ZzLang

open StepReader

namespace Codec

mutual

/-- No tuple or or-pattern inside has more children than the decoder takes. -/
def cappedPattern : Pattern → Prop
  | .variant _ (some p) => cappedPattern p
  | .tuple pats => pats.length ≤ patternCap ∧ cappedPatterns pats
  | .or pats => pats.length ≤ patternCap ∧ cappedPatterns pats
  | _ => True

/-- The same of every pattern of a list. -/
def cappedPatterns : List Pattern → Prop
  | [] => True
  | p :: ps => cappedPattern p ∧ cappedPatterns ps

end

/-- A take op names at most one of a slot and a variable. -/
def oneHome (slot : Option UInt16) (var : Option StrId) : Prop :=
  slot = none ∨ var = none

/-- What the format asks of an op. -/
def AdmissibleOp : Op → Prop
  | .loadPath parts | .storePath parts => parts.length ≤ idListCap
  | .vecPushField slot var _ | .vecPushMethod slot var _ | .setFieldTake slot var _
  | .setFieldIndexTake slot var _ | .fieldBinopTake slot var _ _ | .storeIndexTake slot var
  | .compoundIndexTake slot var _ | .getFieldIndex slot var _ | .lenField slot var _
  | .getFieldSlotIdx slot var _ _ => oneHome slot var
  | .forNext vars _ _ _ => vars.length ≤ idListCap
  | .makeStruct _ fields | .registerStruct _ fields => fields.length ≤ idListCap
  | .registerEnum _ variants => variants.length ≤ variantCap
  | .matchArm pat _ _ _ | .ifLetMatch pat _ _ => cappedPattern pat
  | .callPath parts _ _ => parts.length ≤ idListCap
  | _ => True

/-- What the format asks of a function. -/
structure AdmissibleFunc (f : FuncDef) : Prop where
  spans : f.spans.length = f.code.length
  params : f.params.length ≤ paramCap
  locals : f.locals.length ≤ localCap
  vartab : f.vartab.length ≤ localCap
  vartabEntry : ∀ entry ∈ f.vartab, entry.length ≤ vartabEntryCap
  code : ∀ op ∈ f.code, AdmissibleOp op

/-- The number of ops of a module. -/
def opCount (fs : List FuncDef) : ℕ := (fs.map fun f => f.code.length).sum

/-- The number of spans of a module. -/
def spanCount (fs : List FuncDef) : ℕ := (fs.map fun f => f.spans.length).sum

/-- What the format asks of a module. -/
structure Admissible (m : Module) : Prop where
  entry : m.entry = ⟨0⟩
  nonempty : m.funcs ≠ []
  types : m.types.length ≤ tableCap
  strings : m.strings.length ≤ tableCap
  consts : m.consts.length ≤ tableCap
  funcs : m.funcs.length ≤ funcCap
  ops : opCount m.funcs ≤ opCap
  spans : spanCount m.funcs ≤ opCap
  func : ∀ f ∈ m.funcs, AdmissibleFunc f

end Codec

end ZzLang
