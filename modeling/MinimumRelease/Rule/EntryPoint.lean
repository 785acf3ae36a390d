import MinimumRelease.Feature
import MinimumRelease.Text.Dotted

/-!
# Static entry points

Some features show only in a call: `List.of(…)` names no type that is new, yet the method is. An
entry point lists the methods of some classes whose call alone stands for a feature.
-/

namespace MinimumRelease

/-- Static methods whose call stands for a feature. -/
structure EntryPoint where
  package : String
  receivers : List String
  methods : List String
  feature : Feature

namespace EntryPoint

/-- Whether `receiver.method(…)` is a call of the entry point. The receiver is the simple name of
the class or its qualified one. -/
def isCalledBy (e : EntryPoint) (receiver method : String) : Bool :=
  e.methods.contains method &&
    match Text.after? e.package.toList receiver.toList with
    | none => e.receivers.contains receiver
    | some ('.' :: simple) => e.receivers.contains (String.ofList simple)
    | some _ => false

/-- The entry points of the platform. -/
def all : List EntryPoint :=
  [⟨"java.util", ["List", "Set", "Map"], ["of", "ofEntries", "entry"], .collectionFactoryMethods⟩,
   ⟨"java.util", ["List", "Set", "Map"], ["copyOf"], .collectionCopyOf⟩,
   ⟨"java.util.stream", ["Collectors"], ["teeing"], .collectorsTeeing⟩,
   ⟨"java.lang", ["Thread"], ["ofVirtual", "startVirtualThread"], .virtualThreads⟩,
   ⟨"java.util.concurrent", ["Executors"], ["newVirtualThreadPerTaskExecutor"], .virtualThreads⟩]

/-- The feature that a call of `receiver.method(…)` stands for: that of the first entry point it
calls. -/
def featureOf? (receiver method : String) : Option Feature :=
  (all.find? (·.isCalledBy receiver method)).map (·.feature)

end EntryPoint

end MinimumRelease
