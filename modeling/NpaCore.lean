import NpaCore.Syntax.SharedSubstitution
import NpaCore.Certificate.AxiomReport
import NpaCore.Kernel.LevelInstances
import NpaCore.Kernel.ConversionSoundness
import NpaCore.Reference.UniverseEquivalence
import NpaCore.Reference.Agreement
import NpaCore.Kernel.Predicativity
import NpaCore.Kernel.UniverseOverflow
import NpaCore.Certificate.CanonicalMemo
import NpaCore.External.UniverseSoundness
import NpaCore.Certificate.OrderAgreement
import NpaCore.Wire.DependencyChecks
import NpaCore.Wire.BuiltTables
import NpaCore.Frontend.LexerAgreement
import NpaCore.Package.ManifestGraph
import NpaCore.Package.AuditSelectionExact
import NpaCore.Package.JsonExact
import NpaCore.Frontend.ScopeCorrectness
import NpaCore.Kernel.Growth
import NpaCore.Tactic.Soundness
import NpaCore.Tactic.Independence
import NpaCore.Tactic.Admission
