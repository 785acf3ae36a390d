/-!
# The feature catalog

A feature is a named capability of the Java language or of its platform library, with the
release that introduced it. The catalog lists every feature once, in ascending order of release.
A file that shows a feature needs at least that feature's release, so the release a file requires
is the largest one among its features.
-/

namespace MinimumRelease

/-- Newest release that the catalog and the grammar profiles know. -/
def latestRelease : Int := 25

/-- Oldest release with a grammar profile. Everything older is accepted by that profile. -/
def baselineRelease : Int := 8

/-- How a feature is recognised: from the shape of the syntax tree, or from the names of
platform packages and types that the file mentions. -/
inductive Category where
  | language
  | library
deriving DecidableEq

/-- A named capability of the language or its library. The constructors stand in catalog order. -/
inductive Feature where
  | awt | applet | ioApi | innerClasses | reflection | jdbc | rmi | javaBeans | serialization
  | strictfp | swing | collectionsFramework | corba | jndi | javaSound | jpda | assert | regex
  | nio | logging | xmlApi | preferences | imageIo | generics | enums | annotations | varargs
  | forEach | staticImport | autoboxing | concurrentApi | scanner | scriptingApi | compilerApi
  | jaxb | jaxWs | stax | swingWorker | diamondOperator | tryWithResources | multiCatch
  | binaryLiterals | underscoresInLiterals | stringsInSwitch | forkJoin | nio2 | watchService
  | lambdas | methodReferences | defaultInterfaceMethods | staticInterfaceMethods
  | repeatingAnnotations | typeAnnotations | streamApi | dateTimeApi | optional | base64Api
  | modules | privateInterfaceMethods | tryWithEffectivelyFinal | diamondWithAnonymous
  | processApi | reactiveStreams | stackWalking | collectionFactoryMethods | var
  | collectionCopyOf | varInLambda | httpClient | flightRecorder | compactNumberFormat
  | collectorsTeeing | switchExpressions | switchMultipleLabels | yield | textBlocks
  | hiddenClasses | edDsa | records | patternMatchingInstanceof | localInterfaces | localEnums
  | localRecords | unixDomainSockets | sealedClasses | randomGenerator | hexFormat
  | deserializationFilters | simpleWebServer | inetAddressResolver | recordPatterns
  | switchPatternMatching | switchNullDefault | sequencedCollections | virtualThreads
  | keyEncapsulation | unnamedVariables | foreignFunctionApi | markdownDocComments
  | streamGatherers | classFileApi | quantumResistantKem | scopedValues | keyDerivationApi
  | moduleImports | flexibleConstructorBodies | compactSourceFiles
deriving DecidableEq

namespace Feature

/-- One row of the catalog. -/
structure Entry where
  /-- Stable identifier, in capitals. -/
  name : String
  /-- Release that introduced the feature. -/
  release : Int
  category : Category
  /-- One-line label for reports. -/
  label : String

/-- The catalog row of a feature. -/
def entry : Feature → Entry
  | .awt => ⟨"AWT", 1, .library, "Abstract Window Toolkit (java.awt)"⟩
  | .applet => ⟨"APPLET", 1, .library, "Applets (java.applet)"⟩
  | .ioApi => ⟨"IO_API", 1, .library, "Stream I/O (java.io)"⟩
  | .innerClasses => ⟨"INNER_CLASSES", 1, .language, "Nested, inner and anonymous classes"⟩
  | .reflection => ⟨"REFLECTION", 1, .language, "Class literals"⟩
  | .jdbc => ⟨"JDBC", 1, .library, "JDBC (java.sql)"⟩
  | .rmi => ⟨"RMI", 1, .library, "Remote Method Invocation (java.rmi)"⟩
  | .javaBeans => ⟨"JAVABEANS", 1, .library, "JavaBeans (java.beans)"⟩
  | .serialization => ⟨"SERIALIZATION", 1, .library, "Object serialization"⟩
  | .strictfp => ⟨"STRICTFP", 2, .language, "strictfp modifier"⟩
  | .swing => ⟨"SWING", 2, .library, "Swing (javax.swing)"⟩
  | .collectionsFramework => ⟨"COLLECTIONS_FRAMEWORK", 2, .library, "Collections framework"⟩
  | .corba => ⟨"CORBA", 2, .library, "CORBA (org.omg)"⟩
  | .jndi => ⟨"JNDI", 3, .library, "JNDI (javax.naming)"⟩
  | .javaSound => ⟨"JAVA_SOUND", 3, .library, "Java Sound (javax.sound)"⟩
  | .jpda => ⟨"JPDA", 3, .library, "Debugger architecture (com.sun.jdi)"⟩
  | .assert => ⟨"ASSERT", 4, .language, "assert statement"⟩
  | .regex => ⟨"REGEX", 4, .library, "Regular expressions (java.util.regex)"⟩
  | .nio => ⟨"NIO", 4, .library, "New I/O (java.nio)"⟩
  | .logging => ⟨"LOGGING", 4, .library, "Logging (java.util.logging)"⟩
  | .xmlApi => ⟨"XML_API", 4, .library, "XML processing (javax.xml)"⟩
  | .preferences => ⟨"PREFERENCES", 4, .library, "Preferences (java.util.prefs)"⟩
  | .imageIo => ⟨"IMAGE_IO", 4, .library, "Image I/O (javax.imageio)"⟩
  | .generics => ⟨"GENERICS", 5, .language, "Generic types and methods"⟩
  | .enums => ⟨"ENUMS", 5, .language, "Enum declarations"⟩
  | .annotations => ⟨"ANNOTATIONS", 5, .language, "Annotations"⟩
  | .varargs => ⟨"VARARGS", 5, .language, "Variable-arity parameters"⟩
  | .forEach => ⟨"FOR_EACH", 5, .language, "Enhanced for loop"⟩
  | .staticImport => ⟨"STATIC_IMPORT", 5, .language, "Static imports"⟩
  | .autoboxing => ⟨"AUTOBOXING", 5, .language, "Autoboxing of primitive values"⟩
  | .concurrentApi => ⟨"CONCURRENT_API", 5, .library,
      "Concurrency utilities (java.util.concurrent)"⟩
  | .scanner => ⟨"SCANNER", 5, .library, "java.util.Scanner"⟩
  | .scriptingApi => ⟨"SCRIPTING_API", 6, .library, "Scripting (javax.script)"⟩
  | .compilerApi => ⟨"COMPILER_API", 6, .library, "Compiler API (javax.tools)"⟩
  | .jaxb => ⟨"JAXB", 6, .library, "JAXB (javax.xml.bind)"⟩
  | .jaxWs => ⟨"JAX_WS", 6, .library, "JAX-WS (javax.xml.ws)"⟩
  | .stax => ⟨"STAX", 6, .library, "StAX (javax.xml.stream)"⟩
  | .swingWorker => ⟨"SWING_WORKER", 6, .library, "javax.swing.SwingWorker"⟩
  | .diamondOperator => ⟨"DIAMOND_OPERATOR", 7, .language, "Diamond operator"⟩
  | .tryWithResources => ⟨"TRY_WITH_RESOURCES", 7, .language, "try-with-resources"⟩
  | .multiCatch => ⟨"MULTI_CATCH", 7, .language, "Multi-catch"⟩
  | .binaryLiterals => ⟨"BINARY_LITERALS", 7, .language, "Binary integer literals"⟩
  | .underscoresInLiterals => ⟨"UNDERSCORES_IN_LITERALS", 7, .language,
      "Underscores in numeric literals"⟩
  | .stringsInSwitch => ⟨"STRINGS_IN_SWITCH", 7, .language, "Strings in switch"⟩
  | .forkJoin => ⟨"FORK_JOIN", 7, .library, "Fork/join framework"⟩
  | .nio2 => ⟨"NIO2", 7, .library, "NIO.2 file system API (java.nio.file)"⟩
  | .watchService => ⟨"WATCH_SERVICE", 7, .library, "java.nio.file.WatchService"⟩
  | .lambdas => ⟨"LAMBDAS", 8, .language, "Lambda expressions"⟩
  | .methodReferences => ⟨"METHOD_REFERENCES", 8, .language, "Method references"⟩
  | .defaultInterfaceMethods => ⟨"DEFAULT_INTERFACE_METHODS", 8, .language,
      "Default interface methods"⟩
  | .staticInterfaceMethods => ⟨"STATIC_INTERFACE_METHODS", 8, .language,
      "Static interface methods"⟩
  | .repeatingAnnotations => ⟨"REPEATING_ANNOTATIONS", 8, .language, "Repeating annotations"⟩
  | .typeAnnotations => ⟨"TYPE_ANNOTATIONS", 8, .language, "Type annotations"⟩
  | .streamApi => ⟨"STREAM_API", 8, .library, "Streams (java.util.stream)"⟩
  | .dateTimeApi => ⟨"DATE_TIME_API", 8, .library, "Date and time (java.time)"⟩
  | .optional => ⟨"OPTIONAL", 8, .library, "java.util.Optional"⟩
  | .base64Api => ⟨"BASE64_API", 8, .library, "java.util.Base64"⟩
  | .modules => ⟨"MODULES", 9, .language, "Module declarations"⟩
  | .privateInterfaceMethods => ⟨"PRIVATE_INTERFACE_METHODS", 9, .language,
      "Private interface methods"⟩
  | .tryWithEffectivelyFinal => ⟨"TRY_WITH_EFFECTIVELY_FINAL", 9, .language,
      "Effectively final variables as resources"⟩
  | .diamondWithAnonymous => ⟨"DIAMOND_WITH_ANONYMOUS", 9, .language,
      "Diamond with anonymous classes"⟩
  | .processApi => ⟨"PROCESS_API", 9, .library, "java.lang.ProcessHandle"⟩
  | .reactiveStreams => ⟨"REACTIVE_STREAMS", 9, .library, "java.util.concurrent.Flow"⟩
  | .stackWalking => ⟨"STACK_WALKING", 9, .library, "java.lang.StackWalker"⟩
  | .collectionFactoryMethods => ⟨"COLLECTION_FACTORY_METHODS", 9, .library,
      "List.of, Set.of, Map.of"⟩
  | .var => ⟨"VAR", 10, .language, "Local variable type inference"⟩
  | .collectionCopyOf => ⟨"COLLECTION_COPY_OF", 10, .library, "List.copyOf, Set.copyOf, Map.copyOf"⟩
  | .varInLambda => ⟨"VAR_IN_LAMBDA", 11, .language, "var in lambda parameters"⟩
  | .httpClient => ⟨"HTTP_CLIENT", 11, .library, "HTTP client (java.net.http)"⟩
  | .flightRecorder => ⟨"FLIGHT_RECORDER", 11, .library, "Flight Recorder (jdk.jfr)"⟩
  | .compactNumberFormat => ⟨"COMPACT_NUMBER_FORMAT", 12, .library, "java.text.CompactNumberFormat"⟩
  | .collectorsTeeing => ⟨"COLLECTORS_TEEING", 12, .library, "Collectors.teeing"⟩
  | .switchExpressions => ⟨"SWITCH_EXPRESSIONS", 14, .language, "Switch expressions"⟩
  | .switchMultipleLabels => ⟨"SWITCH_MULTIPLE_LABELS", 14, .language, "Multiple case labels"⟩
  | .yield => ⟨"YIELD", 14, .language, "yield statement"⟩
  | .textBlocks => ⟨"TEXT_BLOCKS", 15, .language, "Text blocks"⟩
  | .hiddenClasses => ⟨"HIDDEN_CLASSES", 15, .library, "Hidden classes (java.lang.invoke)"⟩
  | .edDsa => ⟨"EDDSA", 15, .library, "Edwards-curve signatures"⟩
  | .records => ⟨"RECORDS", 16, .language, "Records"⟩
  | .patternMatchingInstanceof => ⟨"PATTERN_MATCHING_INSTANCEOF", 16, .language,
      "Pattern matching for instanceof"⟩
  | .localInterfaces => ⟨"LOCAL_INTERFACES", 16, .language, "Local interfaces"⟩
  | .localEnums => ⟨"LOCAL_ENUMS", 16, .language, "Local enums"⟩
  | .localRecords => ⟨"LOCAL_RECORDS", 16, .language, "Local records"⟩
  | .unixDomainSockets => ⟨"UNIX_DOMAIN_SOCKETS", 16, .library, "Unix domain socket channels"⟩
  | .sealedClasses => ⟨"SEALED_CLASSES", 17, .language, "Sealed classes"⟩
  | .randomGenerator => ⟨"RANDOM_GENERATOR", 17, .library, "java.util.random"⟩
  | .hexFormat => ⟨"HEX_FORMAT", 17, .library, "java.util.HexFormat"⟩
  | .deserializationFilters => ⟨"DESERIALIZATION_FILTERS", 17, .library,
      "java.io.ObjectInputFilter"⟩
  | .simpleWebServer => ⟨"SIMPLE_WEB_SERVER", 18, .library, "com.sun.net.httpserver"⟩
  | .inetAddressResolver => ⟨"INET_ADDRESS_RESOLVER", 18, .library, "java.net.spi"⟩
  | .recordPatterns => ⟨"RECORD_PATTERNS", 21, .language, "Record patterns"⟩
  | .switchPatternMatching => ⟨"SWITCH_PATTERN_MATCHING", 21, .language,
      "Pattern matching for switch"⟩
  | .switchNullDefault => ⟨"SWITCH_NULL_DEFAULT", 21, .language, "case null"⟩
  | .sequencedCollections => ⟨"SEQUENCED_COLLECTIONS", 21, .library, "Sequenced collections"⟩
  | .virtualThreads => ⟨"VIRTUAL_THREADS", 21, .library, "Virtual threads"⟩
  | .keyEncapsulation => ⟨"KEY_ENCAPSULATION", 21, .library, "javax.crypto.KEM"⟩
  | .unnamedVariables => ⟨"UNNAMED_VARIABLES", 22, .language, "Unnamed variables and patterns"⟩
  | .foreignFunctionApi => ⟨"FOREIGN_FUNCTION_API", 22, .library, "Foreign function and memory API"⟩
  | .markdownDocComments => ⟨"MARKDOWN_DOC_COMMENTS", 23, .language,
      "Markdown documentation comments"⟩
  | .streamGatherers => ⟨"STREAM_GATHERERS", 24, .library, "Stream gatherers"⟩
  | .classFileApi => ⟨"CLASS_FILE_API", 24, .library, "Class-file API (java.lang.classfile)"⟩
  | .quantumResistantKem => ⟨"QUANTUM_RESISTANT_KEM", 24, .library, "ML-KEM (javax.crypto.kem)"⟩
  | .scopedValues => ⟨"SCOPED_VALUES", 25, .library, "java.lang.ScopedValue"⟩
  | .keyDerivationApi => ⟨"KEY_DERIVATION_API", 25, .library, "javax.crypto.KDF"⟩
  | .moduleImports => ⟨"MODULE_IMPORTS", 25, .language, "Module import declarations"⟩
  | .flexibleConstructorBodies => ⟨"FLEXIBLE_CONSTRUCTOR_BODIES", 25, .language,
      "Statements before super()"⟩
  | .compactSourceFiles => ⟨"COMPACT_SOURCE_FILES", 25, .language, "Compact source files"⟩

/-- Every feature, in catalog order. -/
def all : List Feature :=
  [.awt, .applet, .ioApi, .innerClasses, .reflection, .jdbc, .rmi, .javaBeans, .serialization,
   .strictfp, .swing, .collectionsFramework, .corba, .jndi, .javaSound, .jpda, .assert, .regex,
   .nio, .logging, .xmlApi, .preferences, .imageIo, .generics, .enums, .annotations, .varargs,
   .forEach, .staticImport, .autoboxing, .concurrentApi, .scanner, .scriptingApi, .compilerApi,
   .jaxb, .jaxWs, .stax, .swingWorker, .diamondOperator, .tryWithResources, .multiCatch,
   .binaryLiterals, .underscoresInLiterals, .stringsInSwitch, .forkJoin, .nio2, .watchService,
   .lambdas, .methodReferences, .defaultInterfaceMethods, .staticInterfaceMethods,
   .repeatingAnnotations, .typeAnnotations, .streamApi, .dateTimeApi, .optional, .base64Api,
   .modules, .privateInterfaceMethods, .tryWithEffectivelyFinal, .diamondWithAnonymous,
   .processApi, .reactiveStreams, .stackWalking, .collectionFactoryMethods, .var,
   .collectionCopyOf, .varInLambda, .httpClient, .flightRecorder, .compactNumberFormat,
   .collectorsTeeing, .switchExpressions, .switchMultipleLabels, .yield, .textBlocks,
   .hiddenClasses, .edDsa, .records, .patternMatchingInstanceof, .localInterfaces, .localEnums,
   .localRecords, .unixDomainSockets, .sealedClasses, .randomGenerator, .hexFormat,
   .deserializationFilters, .simpleWebServer, .inetAddressResolver, .recordPatterns,
   .switchPatternMatching, .switchNullDefault, .sequencedCollections, .virtualThreads,
   .keyEncapsulation, .unnamedVariables, .foreignFunctionApi, .markdownDocComments,
   .streamGatherers, .classFileApi, .quantumResistantKem, .scopedValues, .keyDerivationApi,
   .moduleImports, .flexibleConstructorBodies, .compactSourceFiles]

/-- Stable identifier of the feature, in capitals. -/
def name (f : Feature) : String := f.entry.name

/-- Release that introduced the feature. -/
def release (f : Feature) : Int := f.entry.release

/-- How the feature is recognised. -/
def category (f : Feature) : Category := f.entry.category

/-- One-line label for reports. -/
def label (f : Feature) : String := f.entry.label

/-- Library features are recognised by name, all others by shape. -/
def isLibrary (f : Feature) : Bool := f.category = .library

/-- The feature with the given identifier. -/
def ofName? (name : String) : Option Feature := all.find? (·.name = name)

/-- The distinct members of `fs`, in catalog order. Two lists with the same members have the same
canonical form, so it stands for the set. -/
def canonical (fs : List Feature) : List Feature := all.filter (· ∈ fs)

/-- The newest release among `fs`, or `floor` when there is none. The floor does not raise the
release of a list that has members. -/
def requiredRelease (floor : Int) (fs : List Feature) : Int :=
  (fs.map release).max?.getD floor

/-- The newest release among the language features of `fs`. -/
def requiredLanguageRelease? (fs : List Feature) : Option Int :=
  ((fs.filter (!·.isLibrary)).map release).max?

/-- Report order: by release, and by name within a release. -/
def reportedBefore (f g : Feature) : Bool :=
  f.release < g.release || (f.release = g.release && f.name ≤ g.name)

theorem mem_all (f : Feature) : f ∈ all := by cases f <;> decide

@[simp] theorem mem_canonical {f : Feature} {fs : List Feature} : f ∈ canonical fs ↔ f ∈ fs := by
  simp [canonical, mem_all]

theorem canonical_congr {fs gs : List Feature} (h : ∀ f, f ∈ fs ↔ f ∈ gs) :
    canonical fs = canonical gs :=
  List.filter_congr fun f _ => decide_eq_decide.2 (h f)

/-- The newest release depends on what is listed, not on the order and how often. -/
theorem max?_release_congr {fs gs : List Feature} (h : ∀ f, f ∈ fs ↔ f ∈ gs) :
    (fs.map release).max? = (gs.map release).max? := by
  refine Option.ext fun r => ?_
  simp only [List.max?_eq_some_iff, List.mem_map, h]

theorem requiredRelease_canonical (floor : Int) (fs : List Feature) :
    requiredRelease floor (canonical fs) = requiredRelease floor fs := by
  rw [requiredRelease, requiredRelease, max?_release_congr fun f => mem_canonical]

end Feature

end MinimumRelease
