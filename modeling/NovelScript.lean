import NovelScript.LeadBytes
import NovelScript.Main
import NovelScript.Proofs.Archive.Repacking
import NovelScript.Proofs.Compile.ParameterCount
import NovelScript.Proofs.Decompile.Checks
import NovelScript.Proofs.Decompile.Identity
import NovelScript.Proofs.Decompile.Independence
import NovelScript.Proofs.Decompile.Inverse
import NovelScript.Proofs.Decompile.LineOrder
import NovelScript.Proofs.Decompile.Literals
import NovelScript.Proofs.Decompile.Nesting
import NovelScript.Proofs.Decompile.OpenEnds
import NovelScript.Proofs.Decompile.Precedence
import NovelScript.Proofs.Decompile.RoundTrip
import NovelScript.Proofs.Project.PackedReuse
import NovelScript.Proofs.Project.Scoping
import NovelScript.Proofs.Substitution
import NovelScript.Proofs.Table.Labels
import NovelScript.Proofs.Table.Scripts
import NovelScript.Proofs.Table.Truncation
import NovelScript.Proofs.Table.Variables
import NovelScript.Proofs.TextPatch
