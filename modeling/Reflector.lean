import Reflector.Main
import Reflector.Proofs.Collection
import Reflector.Proofs.CommentRemoval
import Reflector.Proofs.Locator
import Reflector.Proofs.Unit
import Reflector.Declaration.Grammar
import Reflector.Proofs.Token
import Reflector.Proofs.TokenGap
import Reflector.Proofs.MemberGrammar
import Reflector.Proofs.MemberName
import Reflector.Proofs.Concatenation
import Reflector.Class.WellFormed
import Reflector.Proofs.WellFormed
import Reflector.Proofs.MemberListing
import Reflector.Block.Literals
import Reflector.Proofs.BlockLiterals
import Reflector.Proofs.LineEnding
import Reflector.Proofs.LineEndingScan
import Reflector.Proofs.EncodingOrder
import Reflector.Proofs.Extraction
import Reflector.Proofs.FileTree
import Reflector.Proofs.CommandLine
import Reflector.Proofs.RunFrame
import Reflector.Proofs.PreparedLexemes
import Reflector.Proofs.ConfigReading
import Reflector.Proofs.SafeOffsets
import Reflector.Proofs.Rendering
import Reflector.Proofs.Registration
import Reflector.Block.Braces
import Reflector.Proofs.BlockBraces
import Reflector.Proofs.OperatorHead
import Reflector.Class.HeaderGrammar
import Reflector.Proofs.HeaderName
import Reflector.Proofs.AnonymousHeader
import Reflector.Proofs.DigitSeparator
import Reflector.Proofs.WordBoundary
import Reflector.Proofs.WordErasure
import Reflector.Proofs.AttributeReaders
import Reflector.Proofs.ImplementedBases
import Reflector.Proofs.ReflectionMarks
import Reflector.Proofs.LocalReading
