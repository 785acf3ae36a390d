import MinimumRelease.Rule.Table

/-!
# The built-in rules

Which packages and types of the Java platform stand for which feature, in catalog order. A type
rule for a package whose package rule exists as well is what lets a bare type name resolve under
an on-demand import.
-/

namespace MinimumRelease

/-- The platform's packages and types, in catalog order. -/
def RuleTable.builtinRules : List Rule :=
  [.ofPackage "java.awt" .awt,
   .ofPackage "java.applet" .applet,
   .ofPackage "java.io" .ioApi,
   .ofPackage "java.sql" .jdbc,
   .ofPackage "javax.sql" .jdbc,
   .ofPackage "java.rmi" .rmi,
   .ofPackage "java.beans" .javaBeans,
   .ofTypes "java.io"
     ["Serializable", "ObjectInputStream", "ObjectOutputStream", "Externalizable"]
     .serialization,
   .ofPackage "javax.swing" .swing,
   .ofTypes "java.util"
     ["Collection", "List", "Set", "Map", "ArrayList", "LinkedList", "HashSet", "TreeSet",
      "HashMap", "TreeMap", "LinkedHashMap", "LinkedHashSet", "Iterator", "Collections",
      "Vector", "Hashtable", "Stack", "Queue", "Deque", "SortedSet", "SortedMap", "NavigableSet",
      "NavigableMap", "AbstractList", "AbstractSet", "AbstractMap", "AbstractCollection"]
     .collectionsFramework,
   .ofPackage "org.omg.CORBA" .corba,
   .ofPackage "org.omg.CosNaming" .corba,
   .ofPackage "javax.naming" .jndi,
   .ofPackage "javax.sound" .javaSound,
   .ofPackage "com.sun.jdi" .jpda,
   .ofPackage "java.util.regex" .regex,
   .ofTypes "java.util.regex" ["Pattern", "Matcher", "PatternSyntaxException"] .regex,
   .ofPackage "java.nio" .nio,
   .ofPackage "java.util.logging" .logging,
   .ofPackage "javax.xml" .xmlApi,
   .ofPackage "java.util.prefs" .preferences,
   .ofPackage "javax.imageio" .imageIo,
   .ofPackage "java.util.concurrent" .concurrentApi,
   .ofTypes "java.util.concurrent"
     ["ExecutorService", "Executor", "Executors", "Future", "Callable", "ThreadPoolExecutor",
      "ScheduledExecutorService", "ScheduledFuture", "TimeUnit", "CountDownLatch",
      "CyclicBarrier", "Semaphore", "BlockingQueue", "LinkedBlockingQueue", "ArrayBlockingQueue",
      "ConcurrentHashMap", "ConcurrentLinkedQueue", "ConcurrentMap", "CopyOnWriteArrayList",
      "CopyOnWriteArraySet", "Exchanger", "CompletionService", "ExecutorCompletionService",
      "CompletableFuture", "Phaser"]
     .concurrentApi,
   .ofTypes "java.util.concurrent.atomic"
     ["AtomicInteger", "AtomicLong", "AtomicBoolean", "AtomicReference", "AtomicIntegerArray",
      "AtomicLongArray", "AtomicReferenceArray"]
     .concurrentApi,
   .ofTypes "java.util.concurrent.locks"
     ["Lock", "ReentrantLock", "ReadWriteLock", "ReentrantReadWriteLock", "Condition",
      "StampedLock", "LockSupport"]
     .concurrentApi,
   .ofTypes "java.util" ["Scanner"] .scanner,
   .ofPackage "javax.script" .scriptingApi,
   .ofPackage "javax.tools" .compilerApi,
   .ofPackage "javax.xml.bind" .jaxb,
   .ofPackage "javax.xml.ws" .jaxWs,
   .ofPackage "javax.xml.stream" .stax,
   .ofTypes "javax.swing" ["SwingWorker"] .swingWorker,
   .ofTypes "java.util.concurrent"
     ["ForkJoinPool", "ForkJoinTask", "ForkJoinWorkerThread", "RecursiveAction", "RecursiveTask",
      "CountedCompleter"]
     .forkJoin,
   .ofPackage "java.nio.file" .nio2,
   .ofTypes "java.nio.file"
     ["Path", "Paths", "Files", "FileSystem", "FileSystems", "FileVisitor", "SimpleFileVisitor",
      "FileVisitResult", "StandardOpenOption", "StandardCopyOption", "LinkOption",
      "DirectoryStream"]
     .nio2,
   .ofTypes "java.nio.file"
     ["WatchService", "WatchKey", "WatchEvent", "Watchable", "StandardWatchEventKinds"]
     .watchService,
   .ofPackage "java.util.stream" .streamApi,
   .ofTypes "java.util.stream"
     ["Stream", "IntStream", "LongStream", "DoubleStream", "Collectors", "StreamSupport",
      "Collector", "BaseStream"]
     .streamApi,
   .ofPackage "java.time" .dateTimeApi,
   .ofTypes "java.time"
     ["LocalDate", "LocalTime", "LocalDateTime", "Instant", "ZonedDateTime", "Duration",
      "Period", "ZoneId", "ZoneOffset", "OffsetDateTime", "OffsetTime", "Year", "YearMonth",
      "MonthDay", "DayOfWeek", "Month", "Clock"]
     .dateTimeApi,
   .ofTypes "java.time.format" ["DateTimeFormatter"] .dateTimeApi,
   .ofTypes "java.time.temporal" ["ChronoUnit", "ChronoField"] .dateTimeApi,
   .ofTypes "java.util" ["Optional", "OptionalInt", "OptionalLong", "OptionalDouble"] .optional,
   .ofTypes "java.util" ["Base64"] .base64Api,
   .ofTypes "java.lang" ["ProcessHandle"] .processApi,
   .ofTypes "java.util.concurrent" ["Flow"] .reactiveStreams,
   .ofPackage "java.util.concurrent.Flow" .reactiveStreams,
   .ofTypes "java.lang" ["StackWalker"] .stackWalking,
   .ofPackage "java.net.http" .httpClient,
   .ofTypes "java.net.http"
     ["HttpClient", "HttpRequest", "HttpResponse", "WebSocket"]
     .httpClient,
   .ofPackage "jdk.jfr" .flightRecorder,
   .ofTypes "jdk.jfr"
     ["FlightRecorder", "Event", "Recording", "RecordingState", "Configuration", "EventType",
      "ValueDescriptor"]
     .flightRecorder,
   .ofTypes "java.text" ["CompactNumberFormat"] .compactNumberFormat,
   .ofTypes "java.lang.invoke" ["MethodHandles"] .hiddenClasses,
   .ofTypes "java.security.spec"
     ["EdECPublicKeySpec", "EdECPrivateKeySpec", "EdECPoint", "NamedParameterSpec"]
     .edDsa,
   .ofTypes "java.security.interfaces" ["EdECKey", "EdECPublicKey", "EdECPrivateKey"] .edDsa,
   .ofTypes "java.net" ["UnixDomainSocketAddress"] .unixDomainSockets,
   .ofTypes "java.nio.channels" ["SocketChannel", "ServerSocketChannel"] .unixDomainSockets,
   .ofPackage "java.util.random" .randomGenerator,
   .ofTypes "java.util" ["HexFormat"] .hexFormat,
   .ofTypes "java.io" ["ObjectInputFilter"] .deserializationFilters,
   .ofPackage "com.sun.net.httpserver" .simpleWebServer,
   .ofPackage "java.net.spi" .inetAddressResolver,
   .ofTypes "java.util"
     ["SequencedCollection", "SequencedSet", "SequencedMap"]
     .sequencedCollections,
   .ofTypes "javax.crypto" ["KEM"] .keyEncapsulation,
   .ofPackage "javax.crypto.KEM" .keyEncapsulation,
   .ofPackage "java.lang.foreign" .foreignFunctionApi,
   .ofTypes "java.util.stream" ["Gatherer", "Gatherers"] .streamGatherers,
   .ofPackage "java.lang.classfile" .classFileApi,
   .ofPackage "javax.crypto.kem" .quantumResistantKem,
   .ofTypes "java.lang" ["ScopedValue"] .scopedValues,
   .ofPackage "javax.crypto.kdf" .keyDerivationApi,
   .ofTypes "javax.crypto" ["KDF"] .keyDerivationApi]

/-- The table of the platform's packages and types. -/
def RuleTable.builtin : RuleTable := .ofRules builtinRules

end MinimumRelease
