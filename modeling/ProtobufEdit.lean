import ProtobufEdit.Convert.Grouped.Safety
import ProtobufEdit.Inplace.Grouped.Walk
import ProtobufEdit.Inplace.Groupless.Walk
import ProtobufEdit.Inspect.Grouped.Designate
import ProtobufEdit.Inspect.Groupless.Lookup
import ProtobufEdit.Path.Duplicate
import ProtobufEdit.Path.Language
import ProtobufEdit.Scan.Agreement
import ProtobufEdit.Scan.Chunking
import ProtobufEdit.Select.Grouped.Spec
import ProtobufEdit.Arena
import ProtobufEdit.Construct.Recover
import ProtobufEdit.Editor.Reopen
import ProtobufEdit.Revise.Family
import ProtobufEdit.Revise.Frames
import ProtobufEdit.Revise.Narrowest
import ProtobufEdit.Revise.Orphans
import ProtobufEdit.Rewrite.Groupless.Safety
import ProtobufEdit.Splice.Groupless.Sink
import ProtobufEdit.Varint.Agreement
import ProtobufEdit.Arena.Walk
import ProtobufEdit.Arena.Links
import ProtobufEdit.Revise.Reread
