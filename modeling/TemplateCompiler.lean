import TemplateCompiler.Compile
import TemplateCompiler.Options.Reader
import TemplateCompiler.Proofs.Stateful
import TemplateCompiler.Proofs.Registration
import TemplateCompiler.Proofs.ScopeStack
import TemplateCompiler.Proofs.Answers
import TemplateCompiler.Proofs.Ensures
import TemplateCompiler.Proofs.Lexical
import TemplateCompiler.Proofs.WalkAgreement
import TemplateCompiler.Proofs.Scoping
import TemplateCompiler.Proofs.Strokes
import TemplateCompiler.Proofs.PropsEmission
import TemplateCompiler.Proofs.Sites
import TemplateCompiler.Proofs.Emission
import TemplateCompiler.Proofs.StageAgreement
import TemplateCompiler.Proofs.Unref
import TemplateCompiler.Proofs.HelperCompleteness
import TemplateCompiler.Proofs.TextOrder
import TemplateCompiler.Proofs.ScopeRestoration
import TemplateCompiler.Proofs.PlacedElements
import TemplateCompiler.Proofs.Rendering
import TemplateCompiler.Proofs.Refusals
import TemplateCompiler.Proofs.PropKeys
import TemplateCompiler.Proofs.ItemKeys
import TemplateCompiler.Proofs.MemberPaths
import TemplateCompiler.Proofs.PathResolution
import TemplateCompiler.Proofs.ModelTargets
import TemplateCompiler.Proofs.OutputModes
import TemplateCompiler.Proofs.ComponentOrder
import TemplateCompiler.Proofs.DirectiveValidity
import TemplateCompiler.Proofs.VNodeTags
import TemplateCompiler.Proofs.AssetDeclarations
import TemplateCompiler.Proofs.SiblingIndependence
import TemplateCompiler.Proofs.VisitOrder
import TemplateCompiler.Proofs.TokenClasses
import TemplateCompiler.Proofs.TokenMap
import TemplateCompiler.Proofs.ArrowHeads
import TemplateCompiler.Proofs.Brackets
import TemplateCompiler.Proofs.Shorthand
import TemplateCompiler.Proofs.Idempotence
import TemplateCompiler.Proofs.Constancy
import TemplateCompiler.Proofs.Literals
import TemplateCompiler.Proofs.StableLists
import TemplateCompiler.Proofs.StringContents
import TemplateCompiler.Proofs.HeaderGrammar
import TemplateCompiler.Proofs.HeaderSpans
import TemplateCompiler.Proofs.PropSegments
import TemplateCompiler.Proofs.PrintedText
import TemplateCompiler.Proofs.StringLiterals
import TemplateCompiler.Proofs.MergedText
import TemplateCompiler.Proofs.SplicedChildren
import TemplateCompiler.Proofs.Listeners
import TemplateCompiler.Proofs.ScopeCounts
import TemplateCompiler.Proofs.MemberGrammar
import TemplateCompiler.Proofs.ByteOffsets
import TemplateCompiler.Proofs.ByteScanners
import TemplateCompiler.Proofs.ByteArrows
import TemplateCompiler.Proofs.ByteResolution
import TemplateCompiler.Proofs.ResolutionSafety
import TemplateCompiler.Proofs.ArrowBodies
import TemplateCompiler.Proofs.TemplateLiterals
import TemplateCompiler.Proofs.PrinterFrames
