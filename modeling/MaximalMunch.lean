import MaximalMunch.Compiler.Event
import MaximalMunch.Diagram
import MaximalMunch.Match.Json
import MaximalMunch.PatternSet.Json
import MaximalMunch.Tag
import MaximalMunch.Proofs.Growth
import MaximalMunch.Proofs.Spelling
import MaximalMunch.Proofs.Lowering
import MaximalMunch.Proofs.Configuration
import MaximalMunch.Proofs.EdgeSearch
import MaximalMunch.Proofs.EdgeOffers
import MaximalMunch.Proofs.Determinization
import MaximalMunch.Proofs.LongestMatch
import MaximalMunch.Proofs.WellFormedness
import MaximalMunch.Proofs.Alphabet
import MaximalMunch.Proofs.TableAutomaton
import MaximalMunch.Proofs.TokenReading
import MaximalMunch.Proofs.PatternTree
import MaximalMunch.Proofs.RuleSet
import MaximalMunch.Proofs.Ambiguity
import MaximalMunch.Proofs.Scanning
import MaximalMunch.Proofs.Lookahead
import MaximalMunch.Proofs.ClassGrammar
import MaximalMunch.Proofs.BoundsGrammar
import MaximalMunch.Proofs.RegexGrammar
import MaximalMunch.Proofs.RegexReading
import MaximalMunch.Proofs.GlobMatching
import MaximalMunch.Proofs.Registration
import MaximalMunch.Proofs.Isolation
import MaximalMunch.Proofs.SizeLimit
import MaximalMunch.Proofs.MatcherAlphabet
import MaximalMunch.Proofs.BoundedWalk
import MaximalMunch.Proofs.Discovery
import MaximalMunch.Proofs.StateCount
import MaximalMunch.Proofs.Relocation
import MaximalMunch.Proofs.RuleOrder
import MaximalMunch.Proofs.JsonRoundTrip
import MaximalMunch.Proofs.MaximalRun
import MaximalMunch.Proofs.SweepInPlace
import MaximalMunch.Proofs.Frame
import MaximalMunch.Proofs.SizeCheck
import MaximalMunch.Proofs.Unrolling
import MaximalMunch.Proofs.ClassReading
import MaximalMunch.Proofs.BoundsReading
import MaximalMunch.Proofs.Composition
import MaximalMunch.Proofs.Quoting
import MaximalMunch.Proofs.Descent
import MaximalMunch.Proofs.DescentReading
import MaximalMunch.Proofs.RegexDescent
import MaximalMunch.Proofs.NestingLimit
import MaximalMunch.Proofs.FirstOffence
import MaximalMunch.Proofs.CanonicalRanges
import MaximalMunch.Proofs.ClosureListing
import MaximalMunch.Proofs.Polling
import MaximalMunch.Proofs.Lockstep
import MaximalMunch.Proofs.Renumbering
import MaximalMunch.Proofs.Unescaping
import MaximalMunch.Proofs.Unambiguity
