import FeatureAssembly.Merge.Inquiry
import FeatureAssembly.Merge.Overlay

/-!
# Merging by prototype

The merger of a build: a feature is laid over what it inherits from its prototype,
which is the only feature that it asks for. A final feature stays as it is, and a
feature without prototype is laid over nothing.
-/

namespace FeatureAssembly.Merger

/-- Lay a feature over what it inherits, given the answer to the question for its
prototype. -/
def onPrototype (base : Feature) (prototype : Prototype) :
    Answer → Except AssemblyError Feature
  | .error e => .error e
  | .ok none => .error (.unresolvedReference base.id prototype.id)
  | .ok (some parent) =>
    .ok ((Feature.inherited base.id parent prototype).overlay base).finished

/-- Make a feature final. -/
def assembleByPrototype (base : Feature) : Inquiry :=
  if base.assembled then .done (.ok base)
  else
    match base.prototype with
    | none => .done (.ok ((Feature.of base.id).overlay base).finished)
    | some prototype => .ask prototype.id fun answer => .done (onPrototype base prototype answer)

/-- **The merger by prototype.** -/
def byPrototype : Merger where
  assemble := assembleByPrototype
  aggregate id parts := { Feature.layered id parts with assembled := true }

end FeatureAssembly.Merger
