import Build2.Libbutl.ParseUint
import Build2.Libbutl.StandardVersion.Parse
import Build2.Libbutl.StandardVersion.Invariant
import Build2.Libbutl.StandardVersion.Documented
import Build2.Libbutl.StandardVersion.Endpoints
import Build2.Libbutl.History
import Build2.Libbutl.PathPattern
import Build2.Lib.Stateful
import Build2.Bpkg.RepositorySearch
import Build2.Lib.Decimal
import Build2.Libbpkg.Version.Order
import Build2.Libbpkg.Version.ComponentOrder
import Build2.Libbpkg.VersionConstraint.Basic
import Build2.Libbpkg.VersionConstraint.Convert
import Build2.Bpkg.Satisfaction.Soundness
import Build2.Bpkg.Satisfaction.Query
import Build2.Libbutl.Manifest.Comment
import Build2.Libbutl.CharScanner.Delivery
import Build2.Libbutl.Manifest.Value
import Build2.Libbutl.Url.RoundTrip
import Build2.Bpkg.PkgBuild.Ordered
import Build2.Bpkg.PkgBuild.Rounds
import Build2.Bpkg.PkgBuild.Terminates
import Build2.Libbuild2.ScopeMap.Chain
import Build2.Libbuild2.Scheduler.Accounting
import Build2.Libbuild2.Depdbs.Reopen
import Build2.Libbuild2.TaskQueues.Levels
import Build2.Libbuild2.Values.Typify
import Build2.Libbutl.Manifest.Stream
import Build2.Libbutl.Paths.Normalized
import Build2.Libbutl.Paths.Relative
import Build2.Libbutl.Utf8.Repair
import Build2.Libbutl.Url.Errors
import Build2.Libbutl.PrefixMaps
import Build2.Libbuild2.PhaseMutex.Phases
import Build2.Libbuild2.TargetSets.Keys
import Build2.Bpkg.LifeCycle.Runs
import Build2.Libbpkg.BuildClass.Match
import Build2.Libbuild2.Lexer.Verbatim
import Build2.Libbuild2.Lookup.Stems
import Build2.Libbutl.Base64
import Build2.Libbutl.StringParser
import Build2.Libbuild2.TargetName
import Build2.Libbuild2.Script.Expression
import Build2.Libbuild2.Script.Lines
import Build2.Libbpkg.Override
import Build2.Libbuild2.Function
import Build2.Libbuild2.Eval.Evaluation
import Build2.Bpkg.PkgBuild.Decision
import Build2.Libbuild2.Cc.Modules
import Build2.Libbuild2.MatchRule
import Build2.Libbuild2.In.Incremental
import Build2.Libbuild2.Version.Condition
import Build2.Bdep.Release.Forward
import Build2.Libbutl.Regex.Expansion
import Build2.Libbuild2.Cc.Lexer.RawString
import Build2.Libbuild2.Cc.MakeDeps
import Build2.Libbuild2.Algorithm.Runs
import Build2.Bpkg.FetchGit.Filters
import Build2.Bpkg.PkgDrop.Disfigure
import Build2.Libbutl.DefaultOptions.Comparison
import Build2.Libbutl.Sha1.Streaming
import Build2.Libbuild2.Algorithm.Basic
import Build2.Libbuild2.Algorithm.LifeCycle
